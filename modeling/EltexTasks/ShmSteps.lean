import EltexTasks.ShmChat
/-!
# ShmSteps — what one section of the shared-memory chat can do

Each kind of step is inverted once, into the list of what it can lead to with the guard of each outcome; the
invariants are proved by cases on these lists and unfold no section.
-/
namespace Eltex
namespace Shm

theorem head_slash_iff (text : CString) :
    text.head? = some (chr '/') ∧ text.tail = str ['n', 'e', 'w'] ↔ text = newText := by
  cases text with
  | nil => simp [newText, str]
  | cons b bs => simp [newText, str]

theorem closes_newText : closes newText = false := by decide

/-! ## The server -/

theorem serverTakes_iff (m : ShmChat) :
    serverTakes m = true ↔ m.clientStatus[0]? = some false ∧ m.messageNew = true := by
  simp [serverTakes]

theorem serverReset_cases (m : ShmChat) :
    (m.msgRecvdClients ≠ m.clientCount ∧ serverReset m = m) ∨
    (m.msgRecvdClients = m.clientCount ∧ serverReset m = { m with
      messageNew := false, clientStatus := clearStatus m.clientStatus m.clientCount, msgRecvdClients := 0 }) := by
  unfold serverReset
  by_cases h : m.msgRecvdClients = m.clientCount
  · exact .inr ⟨h, if_pos h⟩
  · exact .inl ⟨h, if_neg h⟩

/-- **What the server's section does**: nothing to read; a closing message; a join request with the table full; a join
request; any other text. -/
theorem serverSection_cases (m : ShmChat) :
    (serverTakes m = false ∧ serverSection m = (serverReset m, .post)) ∨
    (serverTakes m = true ∧ closes m.msgBuf = true ∧ serverSection m = (m, .leave)) ∨
    (serverTakes m = true ∧ m.msgBuf = newText ∧ clientMax ≤ m.clientCount ∧
      serverSection m = ({ m with clientCount := m.clientCount + 1 }, .exit)) ∨
    (serverTakes m = true ∧ m.msgBuf = newText ∧ m.clientCount < clientMax ∧
      serverSection m = (serverReset (markRead { m with clientCount := m.clientCount + 1 } 0), .post)) ∨
    (serverTakes m = true ∧ m.msgBuf ≠ newText ∧ closes m.msgBuf = false ∧
      serverSection m = (serverReset (markRead m 0), .post)) := by
  cases ht : serverTakes m with
  | false => exact .inl ⟨rfl, by simp [serverSection, serverTake, ht]⟩
  | true =>
    refine .inr ?_
    by_cases hs : m.msgBuf.head? = some (chr '/')
    · by_cases hn : m.msgBuf.tail = str ['n', 'e', 'w']
      · have hnew := (head_slash_iff m.msgBuf).1 ⟨hs, hn⟩
        by_cases hmax : clientMax < m.clientCount + 1
        · exact .inr (.inl ⟨rfl, hnew, Nat.le_of_lt_succ hmax, by simp [serverSection, serverTake, ht, hs, hn, hmax]⟩)
        · exact .inr (.inr (.inl ⟨rfl, hnew, by omega, by simp [serverSection, serverTake, ht, hs, hn, hmax]⟩))
      · exact .inl ⟨rfl, by simp [closes, hs, hn], by simp [serverSection, serverTake, ht, hs, hn]⟩
    · refine .inr (.inr (.inr ⟨rfl, fun hnew => hs ?_, by simp [closes, hs], by simp [serverSection, serverTake, ht, hs]⟩))
      exact ((head_slash_iff m.msgBuf).2 hnew).1

/-- **A step of the server**, guard and state after it. -/
theorem serverStep_cases {s t : Chat} (h : serverStep s = some t) :
    s.server = true ∧
    ((serverTakes s.shm = false ∧ t = { s with shm := serverReset s.shm }) ∨
     (serverTakes s.shm = true ∧ closes s.shm.msgBuf = true ∧
       t = { s with server := false, hist := s.hist.serverTake s.shm.msgBuf }) ∨
     (serverTakes s.shm = true ∧ s.shm.msgBuf = newText ∧ clientMax ≤ s.shm.clientCount ∧
       t = { s with shm := { s.shm with clientCount := s.shm.clientCount + 1 }, server := false,
                    hist := s.hist.serverTake s.shm.msgBuf }) ∨
     (serverTakes s.shm = true ∧ s.shm.msgBuf = newText ∧ s.shm.clientCount < clientMax ∧
       t = { s with shm := serverReset (markRead { s.shm with clientCount := s.shm.clientCount + 1 } 0),
                    hist := s.hist.serverTake s.shm.msgBuf }) ∨
     (serverTakes s.shm = true ∧ s.shm.msgBuf ≠ newText ∧ closes s.shm.msgBuf = false ∧
       t = { s with shm := serverReset (markRead s.shm 0), hist := s.hist.serverTake s.shm.msgBuf })) := by
  unfold serverStep at h
  split at h
  case isFalse => cases h
  case isTrue hrun =>
  obtain rfl := Option.some.inj h
  refine ⟨hrun, ?_⟩
  rcases serverSection_cases s.shm with ⟨ht, e⟩ | ⟨ht, hc, e⟩ | ⟨ht, hn, hm, e⟩ | ⟨ht, hn, hm, e⟩ | ⟨ht, hn, hc, e⟩
  · exact .inl ⟨ht, by simp [e, ht, hrun]⟩
  · exact .inr (.inl ⟨ht, hc, by simp [e, ht]⟩)
  · exact .inr (.inr (.inl ⟨ht, hn, hm, by simp [e, ht]⟩))
  · exact .inr (.inr (.inr (.inl ⟨ht, hn, hm, by simp [e, ht, hrun]⟩)))
  · exact .inr (.inr (.inr (.inr ⟨ht, hn, hc, by simp [e, ht, hrun]⟩)))

/-! ## The clients -/

theorem clientTypes_clientId (c : Client) (stdin : List Byte) : (clientTypes c stdin).clientId = c.clientId := by
  unfold clientTypes; split <;> rfl

/-- **A join step**: with no message pending the client takes the count for its id and leaves its request in the block,
otherwise it goes on with id 0. -/
theorem joinStep_cases {s t : Chat} {stdin : Option (List Byte)} (h : joinStep s stdin = some t) :
    ∃ c : Client, c.running = true ∧
    ((s.shm.messageNew = false ∧
      t = { s with shm := { s.shm with messageNew := true, msgBuf := newText },
                   clients := s.clients ++ [{ c with clientId := s.shm.clientCount }],
                   hist := s.hist.write ⟨.join s.clients.length, newText, s.clients.length + 1⟩ }) ∨
     (s.shm.messageNew = true ∧ t = { s with clients := s.clients ++ [{ c with clientId := 0 }] })) := by
  unfold joinStep at h
  simp only at h
  split at h
  case isFalse => cases h
  case isTrue hrun =>
  refine ⟨startClient stdin, hrun, ?_⟩
  obtain rfl := Option.some.inj h
  cases hm : s.shm.messageNew with
  | false => exact .inl ⟨rfl, by simp [clientJoin, hm]⟩
  | true => exact .inr ⟨rfl, by simp [clientJoin, hm]⟩

theorem messageNew_of_clientWrites {m : ShmChat} {c : Client} (h : clientWrites m c = true) : m.messageNew = false := by
  rw [clientWrites, Bool.and_eq_true, Bool.not_eq_true', Bool.not_eq_true'] at h
  exact h.2

/-- The chat after the write path of a section of client `i`. -/
def afterWrite (s : Chat) (i : Nat) (c : Client) : Chat :=
  if clientWrites s.shm c then
    { s with shm := { s.shm with msgBuf := c.inputBuf, messageNew := true },
             hist := s.hist.write ⟨.line i, c.inputBuf, s.clients.length⟩ }
  else s

theorem clientWrite_shm (m : ShmChat) (c : Client) :
    (clientWrite m c).1 = if clientWrites m c then { m with msgBuf := c.inputBuf, messageNew := true } else m := by
  unfold clientWrite clientWrites
  cases c.flag <;> cases m.messageNew <;> simp

theorem clientWrite_clientId (m : ShmChat) (c : Client) : (clientWrite m c).2.clientId = c.clientId := by
  unfold clientWrite; split <;> [split <;> rfl; rfl]

theorem afterWrite_shm (s : Chat) (i : Nat) (c : Client) : (afterWrite s i c).shm = (clientWrite s.shm c).1 := by
  rw [clientWrite_shm]; unfold afterWrite; split <;> rfl

/-- **A section of a client's loop**: its write path, then a read of a message its status byte says it has not read, or
none. -/
theorem clientStep_cases {s t : Chat} {i : Nat} (h : clientStep s i = some t) :
    ∃ c c' : Client, s.clients[i]? = some c ∧ c.running = true ∧ c'.clientId = c.clientId ∧
    (((∃ b, (afterWrite s i c).shm.clientStatus[c.clientId]? = some b ∧
        (b = true ∨ (afterWrite s i c).shm.messageNew = false)) ∧
      t = { afterWrite s i c with clients := s.clients.set i c' }) ∨
     ((afterWrite s i c).shm.clientStatus[c.clientId]? = some false ∧ (afterWrite s i c).shm.messageNew = true ∧
      t = { afterWrite s i c with
              shm := markRead (afterWrite s i c).shm c.clientId
              clients := s.clients.set i c'
              hist := (afterWrite s i c).hist.take (.client i) (afterWrite s i c).shm.msgBuf })) := by
  unfold clientStep at h
  cases hc : s.clients[i]? with
  | none => rw [hc] at h; cases h
  | some c =>
    rw [hc] at h
    simp only at h
    split at h
    case isFalse => cases h
    case isTrue hrun =>
    have hhist : (afterWrite s i c).hist = clientHist s i c none := by
      unfold afterWrite clientHist; split <;> simp [*]
    have hserver : (afterWrite s i c).server = s.server := by unfold afterWrite; split <;> rfl
    unfold clientSection clientRead at h
    simp only [← afterWrite_shm s i c, clientWrite_clientId] at h
    have hid := clientWrite_clientId s.shm c
    cases hst : (afterWrite s i c).shm.clientStatus[c.clientId]? with
    | none => simp [hst] at h
    | some b =>
      cases b with
      | true =>
        simp only [hst, Option.some.injEq] at h
        refine ⟨c, { (clientWrite s.shm c).2 with running := true }, rfl, hrun, hid,
          .inl ⟨⟨true, hst, .inl rfl⟩, ?_⟩⟩
        rw [← h, ← hserver, ← hhist]; rfl
      | false =>
        cases hn : (afterWrite s i c).shm.messageNew with
        | false =>
          simp only [hst, hn, Bool.false_eq_true, if_false, Option.some.injEq] at h
          refine ⟨c, { (clientWrite s.shm c).2 with running := true }, rfl, hrun, hid,
            .inl ⟨⟨false, hst, .inr hn⟩, ?_⟩⟩
          rw [← h, ← hserver, ← hhist]; rfl
        | true =>
          simp only [hst, hn, if_true, Option.some.injEq] at h
          refine ⟨c, { (clientWrite s.shm c).2 with running :=
            (if closes (afterWrite s i c).shm.msgBuf then After.leave else .post) == .post }, rfl, hrun, hid,
            .inr ⟨hst, hn, ?_⟩⟩
          rw [← h, ← hserver, hhist]; rfl

/-- **A turn of an input thread** changes its client alone, and not its id. -/
theorem typedStep_cases {s t : Chat} {i : Nat} {stdin : List Byte} (h : typedStep s i stdin = some t) :
    ∃ c c' : Client, s.clients[i]? = some c ∧ c'.clientId = c.clientId ∧
      t = { s with clients := s.clients.set i c' } := by
  unfold typedStep at h
  cases hc : s.clients[i]? with
  | none => rw [hc] at h; cases h
  | some c =>
    rw [hc] at h
    simp only at h
    split at h
    case isFalse => cases h
    case isTrue => exact ⟨c, _, rfl, clientTypes_clientId c stdin, (Option.some.inj h).symm⟩

/-! ## The ids -/

/-- The ids of the clients that have joined, in the order of their join sections. -/
def Chat.ids (s : Chat) : List Nat := s.clients.map Client.clientId

theorem ids_set {cs : List Client} {i : Nat} {c c' : Client} (hc : cs[i]? = some c) (hid : c'.clientId = c.clientId) :
    (cs.set i c').map Client.clientId = cs.map Client.clientId := by
  rw [List.map_set, hid]
  refine List.ext_getElem? fun j => ?_
  by_cases hij : i = j
  · subst hij
    obtain ⟨hlt, -⟩ := List.getElem?_eq_some_iff.1 hc
    rw [List.getElem?_set_self (by rw [List.length_map]; exact hlt), List.getElem?_map, hc]
    rfl
  · rw [List.getElem?_set_ne hij]

end Shm
end Eltex
