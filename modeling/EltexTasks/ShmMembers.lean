import EltexTasks.ShmSteps
/-!
# ShmMembers — who the shared-memory chat believes is in it

The ids the clients chose in their join sections (`ids_distinct_iff`) and the server's count of the participants
(`count_truthful_iff`), each with the exact condition under which it is right along a whole run.
-/
namespace Eltex
namespace Shm

open Run (run Always Steps)

theorem serverReset_clientCount (m : ShmChat) : (serverReset m).clientCount = m.clientCount := by
  rcases serverReset_cases m with ⟨-, e⟩ | ⟨-, e⟩ <;> rw [e]

theorem length_clearStatus (st : List Bool) (n : Nat) : (clearStatus st n).length = st.length := by
  simp [clearStatus]; omega

theorem length_serverReset (m : ShmChat) : (serverReset m).clientStatus.length = m.clientStatus.length := by
  rcases serverReset_cases m with ⟨-, e⟩ | ⟨-, e⟩ <;> simp [e, length_clearStatus]

/-- The server finds a message only while one is pending, and a reset leaves none. -/
theorem serverTakes_of_reset {m : ShmChat} (h : serverTakes (serverReset m) = true) :
    serverReset m = m ∧ serverTakes m = true := by
  rcases serverReset_cases m with ⟨-, e⟩ | ⟨-, e⟩
  · exact ⟨e, by rwa [e] at h⟩
  · rw [e] at h; simp [serverTakes] at h

theorem serverTakes_markRead_zero (m : ShmChat) : serverTakes (markRead m 0) = false := by
  cases h : m.clientStatus <;> simp [serverTakes, markRead, h]

theorem serverTakes_of_markRead {m : ShmChat} {id : Nat} (h : serverTakes (markRead m id) = true) :
    serverTakes m = true := by
  rw [serverTakes_iff] at h ⊢
  refine ⟨?_, h.2⟩
  have h1 := h.1
  simp only [markRead, List.getElem?_set] at h1
  split at h1
  · split at h1 <;> cases h1
  · exact h1

theorem clearStatus_zero {st : List Bool} {n : Nat} (hst : 0 < st.length) (hn : 0 < n) :
    (clearStatus st n)[0]? = some false := by
  unfold clearStatus
  rw [List.getElem?_append_left (by simp; omega)]
  rw [List.getElem?_replicate, if_pos (by omega)]

/-! ## The ids -/

/-- **The ids are good**: no client has the server's index 0, no two have the same, and each is an index into
`client_status`. -/
def DistinctIds (s : Chat) : Prop := s.ids.Nodup ∧ ∀ id ∈ s.ids, id ≠ 0 ∧ id < clientMax

instance (s : Chat) : Decidable (DistinctIds s) := inferInstanceAs (Decidable (_ ∧ _))

/-- A join section finds the block free and a place in `client_status`. -/
def joinFits (s : Chat) : Event → Prop
  | .join _ => s.shm.messageNew = false ∧ s.shm.clientCount < clientMax
  | _ => True

instance (s : Chat) (e : Event) : Decidable (joinFits s e) := by
  cases e <;> unfold joinFits <;> infer_instance

/-- `below`: every id is below the count, but for the id of a join request the server has yet to read. -/
structure IdsInv (s : Chat) : Prop where
  distinct : DistinctIds s
  pos : 0 < s.shm.clientCount
  len : 0 < s.shm.clientStatus.length
  idle : s.shm.messageNew = false → s.shm.clientStatus[0]? = some false
  below : (∀ id ∈ s.ids, id < s.shm.clientCount) ∨
    (serverTakes s.shm = true ∧ s.shm.msgBuf = newText ∧ ∀ id ∈ s.ids, id ≤ s.shm.clientCount)

theorem IdsInv.reset {s : Chat} (h : IdsInv s) (hb : ∀ id ∈ s.ids, id < s.shm.clientCount) :
    IdsInv { s with shm := serverReset s.shm } := by
  refine ⟨h.distinct, ?_, ?_, fun hn => ?_, .inl fun id hid => ?_⟩
  · simpa [serverReset_clientCount] using h.pos
  · simpa [length_serverReset] using h.len
  · rcases serverReset_cases s.shm with ⟨-, e⟩ | ⟨-, e⟩
    · simp only [e] at hn ⊢; exact h.idle hn
    · simp only [e]; exact clearStatus_zero h.len h.pos
  · simpa [serverReset_clientCount] using hb id hid

/-- The server reads the message, with a count above every id, and ends its section with the reset. -/
theorem IdsInv.take {s : Chat} (h : IdsInv s) (ht : serverTakes s.shm = true) {count : Nat} (hpos : 0 < count)
    (hb : ∀ id ∈ s.ids, id < count) (hist : History) :
    IdsInv { s with shm := serverReset (markRead { s.shm with clientCount := count } 0), hist := hist } := by
  have hmark : IdsInv { s with shm := markRead { s.shm with clientCount := count } 0, hist := hist } := by
    refine ⟨h.distinct, hpos, by simpa [markRead] using h.len, fun hnew => ?_, .inl hb⟩
    change s.shm.messageNew = false at hnew
    rw [((serverTakes_iff s.shm).1 ht).2] at hnew; cases hnew
  exact hmark.reset hb

theorem IdsInv.le {s : Chat} (h : IdsInv s) : ∀ id ∈ s.ids, id ≤ s.shm.clientCount := by
  intro id hid
  rcases h.below with hb | hb
  · exact Nat.le_of_lt (hb id hid)
  · exact hb.2.2 id hid

theorem IdsInv.server {s t : Chat} (h : IdsInv s) (hs : serverStep s = some t) : IdsInv t := by
  obtain ⟨-, ⟨ht, rfl⟩ | ⟨-, -, rfl⟩ | ⟨ht, -, -, rfl⟩ | ⟨ht, -, -, rfl⟩ | ⟨ht, hn, -, rfl⟩⟩ := serverStep_cases hs
  · refine h.reset (h.below.resolve_right fun hb => ?_)
    rw [ht] at hb; cases hb.1
  · exact ⟨h.distinct, h.pos, h.len, h.idle, h.below⟩
  · exact ⟨h.distinct, Nat.succ_pos _, h.len, h.idle, .inl fun id hid => Nat.lt_succ_of_le (h.le id hid)⟩
  · exact h.take ht (Nat.succ_pos _) (fun id hid => Nat.lt_succ_of_le (h.le id hid)) _
  · exact h.take ht h.pos (h.below.resolve_right fun hb => hn hb.2.1) _

theorem IdsInv.write {s : Chat} (h : IdsInv s) (i : Nat) (c : Client) : IdsInv (afterWrite s i c) := by
  unfold afterWrite
  split
  · rename_i hw
    refine ⟨h.distinct, h.pos, h.len, fun hn => (by cases hn), .inl ?_⟩
    exact h.below.resolve_right fun hb => by
      rw [serverTakes_iff, messageNew_of_clientWrites hw] at hb; cases hb.1.2
  · exact h

theorem ids_afterWrite (s : Chat) (i : Nat) (c : Client) : (afterWrite s i c).clients = s.clients := by
  unfold afterWrite; split <;> rfl

theorem IdsInv.client {s t : Chat} {i : Nat} (h : IdsInv s) (hs : clientStep s i = some t) : IdsInv t := by
  obtain ⟨c, c', hc, -, hid, ht⟩ := clientStep_cases hs
  have hw := h.write i c
  have hids : (s.clients.set i c').map Client.clientId = (afterWrite s i c).ids := by
    rw [ids_set hc hid, Chat.ids, ids_afterWrite]
  have hmem : c.clientId ∈ s.ids := List.mem_map.2 ⟨c, List.mem_of_getElem? hc, rfl⟩
  have hne : c.clientId ≠ 0 := (h.distinct.2 _ hmem).1
  rcases ht with ⟨-, rfl⟩ | ⟨-, hnew, rfl⟩
  · refine ⟨?_, hw.pos, hw.len, hw.idle, ?_⟩
    · show DistinctIds _
      unfold DistinctIds Chat.ids; rw [hids]; exact hw.distinct
    · unfold Chat.ids; rw [hids]; exact hw.below
  · refine ⟨?_, hw.pos, by simpa [markRead] using hw.len, fun hn => ?_, ?_⟩
    · show DistinctIds _
      unfold DistinctIds Chat.ids; rw [hids]; exact hw.distinct
    · change (afterWrite s i c).shm.messageNew = false at hn
      rw [hnew] at hn; cases hn
    · unfold Chat.ids; rw [hids]
      refine hw.below.imp_right fun ⟨ht, hbuf, hle⟩ => ⟨?_, hbuf, hle⟩
      rw [serverTakes_iff] at ht ⊢
      refine ⟨?_, ht.2⟩
      show ((afterWrite s i c).shm.clientStatus.set c.clientId true)[0]? = some false
      rw [List.getElem?_set_ne hne]; exact ht.1

theorem IdsInv.step {s t : Chat} {e : Event} (h : IdsInv s) (hok : joinFits s e) (hs : step s e = some t) :
    IdsInv t := by
  cases e with
  | server => exact h.server hs
  | client i => exact h.client hs
  | typed i stdin =>
    obtain ⟨c, c', hc, hid, rfl⟩ := typedStep_cases hs
    have hids := ids_set hc hid
    refine ⟨?_, h.pos, h.len, h.idle, ?_⟩
    · unfold DistinctIds Chat.ids; rw [hids]; exact h.distinct
    · unfold Chat.ids; rw [hids]; exact h.below
  | join stdin =>
    obtain ⟨hfree, hroom⟩ := hok
    obtain ⟨c, -, ⟨-, rfl⟩ | ⟨hnew, -⟩⟩ := joinStep_cases hs
    case inr => rw [hfree] at hnew; cases hnew
    have hb : ∀ id ∈ s.ids, id < s.shm.clientCount := h.below.resolve_right fun hb => by
      rw [serverTakes_iff, hfree] at hb; cases hb.1.2
    have hmem : ∀ id, id ∈ (s.clients ++ [{ c with clientId := s.shm.clientCount }]).map Client.clientId →
        id ∈ s.ids ∨ id = s.shm.clientCount := by
      intro id hid
      rw [List.map_append, List.mem_append] at hid
      exact hid.imp_right (by simp)
    refine ⟨⟨?_, fun id hid => ?_⟩, h.pos, h.len, fun hn => (by cases hn), .inr ⟨?_, rfl, fun id hid => ?_⟩⟩
    · unfold Chat.ids
      rw [List.map_append, List.nodup_append]
      refine ⟨h.distinct.1, by simp, fun a ha b hb' => ?_⟩
      have := hb a ha
      simp only [List.map_cons, List.map_nil, List.mem_singleton] at hb'
      omega
    · rcases hmem id hid with hid | rfl
      · exact h.distinct.2 id hid
      · exact ⟨Nat.pos_iff_ne_zero.1 h.pos, hroom⟩
    · exact (serverTakes_iff _).2 ⟨h.idle hfree, rfl⟩
    · rcases hmem id hid with hid | rfl
      · exact Nat.le_of_lt (hb id hid)
      · exact Nat.le_refl _

theorem idsInv_init : IdsInv init :=
  ⟨⟨by decide, by decide⟩, by decide, by decide, fun _ => by decide, .inl (by decide)⟩

/-- A join section that finds a message pending or the table full leaves a client with a bad id. -/
theorem not_distinctIds_of_join {s t : Chat} {e : Event} (hok : ¬ joinFits s e) (hs : step s e = some t) :
    ¬ DistinctIds t := by
  cases e with
  | join stdin =>
    simp only [joinFits, not_and, Nat.not_lt] at hok
    intro hd
    obtain ⟨c, -, ⟨hfree, rfl⟩ | ⟨-, rfl⟩⟩ := joinStep_cases hs
    · have := hd.2 s.shm.clientCount (by simp [Chat.ids])
      have := hok hfree
      omega
    · exact (hd.2 0 (by simp [Chat.ids])).1 rfl
  | server => exact absurd trivial hok
  | client i => exact absurd trivial hok
  | typed i stdin => exact absurd trivial hok

/-- **Along a run every joined client has an id of its own, below `CLIENT_MAX`, exactly when every join section found
no message pending and fewer than `CLIENT_MAX` participants counted.** -/
theorem ids_distinct_iff (es : List Event) (s : Chat) (hrun : run step init es = some s) :
    Always step DistinctIds init es ↔ Steps step joinFits init es :=
  Run.always_iff_steps IdsInv (fun _ _ _ h hok hs => h.step hok hs) (fun _ h => h.distinct)
    (fun _ _ _ _ hok hs => not_distinctIds_of_join hok hs) idsInv_init hrun

theorem ids_distinct_of_two_joins :
    Always step DistinctIds init [.join none, .server, .client 0, .server, .join none] :=
  (ids_distinct_iff _ _ rfl).2 (by decide)

/-- Two clients join while the server sleeps: the second finds the request of the first and keeps id 0. -/
theorem second_join_keeps_zero : ¬ ∀ es s, run step init es = some s → DistinctIds s := by
  intro h
  exact absurd (h [.join none, .join none] _ rfl) (by decide)

/-! ## The count -/

/-- A join section finds no message pending. -/
def joinFree (s : Chat) : Event → Prop
  | .join _ => s.shm.messageNew = false
  | _ => True

instance (s : Chat) (e : Event) : Decidable (joinFree s e) := by
  cases e <;> unfold joinFree <;> infer_instance

/-- **The count is truthful**: the server and the clients whose join request it has read, each counted once. -/
def CountTruthful (s : Chat) : Prop :=
  s.shm.clientCount = 1 + s.hist.joinsDone.length ∧
  s.hist.joinsDone.Nodup ∧ ∀ i ∈ s.hist.joinsDone, i < s.clients.length

instance (s : Chat) : Decidable (CountTruthful s) := inferInstanceAs (Decidable (_ ∧ _))

/-- The server reads a "/new" that no join section wrote: a user typed it. -/
def takesTypedNew (s : Chat) : Event → Prop
  | .server => serverTakes s.shm = true ∧ s.shm.msgBuf = newText ∧ s.hist.joiner = none
  | _ => False

/-- `fresh`: the join request in the block, while the server has yet to read it, is not counted. -/
structure CountInv (s : Chat) : Prop where
  truthful : CountTruthful s
  request : ∀ i, s.hist.joiner = some i → i < s.clients.length ∧ (s.shm.messageNew = true → s.shm.msgBuf = newText)
  fresh : s.server = true → serverTakes s.shm = true → ∀ i, s.hist.joiner = some i → i ∉ s.hist.joinsDone

theorem joiner_serverTake (h : History) (text : CString) : (h.serverTake text).joiner = h.joiner := rfl

theorem joinsDone_serverTake (h : History) (text : CString) :
    (h.serverTake text).joinsDone = h.joinsDone ++ h.joiner.toList := rfl

theorem serverReset_msgBuf (m : ShmChat) : (serverReset m).msgBuf = m.msgBuf := by
  rcases serverReset_cases m with ⟨-, e⟩ | ⟨-, e⟩ <;> rw [e]

theorem messageNew_of_serverReset {m : ShmChat} (h : (serverReset m).messageNew = true) : m.messageNew = true := by
  rcases serverReset_cases m with ⟨-, e⟩ | ⟨-, e⟩ <;> simp [e] at h; exact h

theorem not_serverTakes_reset {m : ShmChat} (h : serverTakes m = false) : serverTakes (serverReset m) = false :=
  Bool.eq_false_iff.2 fun ht => by rw [(serverTakes_of_reset ht).2] at h; cases h

/-- A message read that is no join request leaves the count and the joins as they were. -/
theorem joiner_eq_none {s : Chat} (h : CountInv s) (ht : serverTakes s.shm = true) (hn : s.shm.msgBuf ≠ newText) :
    s.hist.joiner = none :=
  Option.eq_none_iff_forall_not_mem.2 fun i hi => hn ((h.request i hi).2 ((serverTakes_iff s.shm).1 ht).2)

theorem countTruthful_serverTake {s : Chat} (h : CountInv s) (hs : s.server = true) (ht : serverTakes s.shm = true)
    (i : Nat) (hi : s.hist.joiner = some i) (text : CString) :
    s.shm.clientCount + 1 = 1 + (s.hist.serverTake text).joinsDone.length ∧
    (s.hist.serverTake text).joinsDone.Nodup ∧ ∀ j ∈ (s.hist.serverTake text).joinsDone, j < s.clients.length := by
  obtain ⟨hcount, hnodup, hlt⟩ := h.truthful
  rw [joinsDone_serverTake, hi]
  refine ⟨by simp; omega, ?_, fun j hj => ?_⟩
  · refine List.nodup_append.2 ⟨hnodup, by simp, fun a ha b hb hab => ?_⟩
    obtain rfl : b = i := by simpa using hb
    exact h.fresh hs ht b hi (hab ▸ ha)
  · rcases List.mem_append.1 hj with hj | hj
    · exact hlt j hj
    · obtain rfl : j = i := by simpa using hj
      exact (h.request j hi).1

theorem CountInv.server {s t : Chat} (h : CountInv s) (hok : ¬ takesTypedNew s .server) (hs : serverStep s = some t) :
    CountInv t := by
  obtain ⟨hrun, ⟨ht, rfl⟩ | ⟨ht, hc, rfl⟩ | ⟨ht, hn, -, rfl⟩ | ⟨ht, hn, -, rfl⟩ | ⟨ht, hn, -, rfl⟩⟩ := serverStep_cases hs
  · refine ⟨?_, fun i hi => ⟨(h.request i hi).1, fun hm => ?_⟩, fun _ ht' => ?_⟩
    · unfold CountTruthful; rw [serverReset_clientCount]; exact h.truthful
    · rw [serverReset_msgBuf]; exact (h.request i hi).2 (messageNew_of_serverReset hm)
    · rw [not_serverTakes_reset ht] at ht'; cases ht'
  · have hn : s.shm.msgBuf ≠ newText := fun hn => by rw [hn, closes_newText] at hc; cases hc
    refine ⟨?_, h.request, fun hr => by cases hr⟩
    unfold CountTruthful; rw [joinsDone_serverTake, joiner_eq_none h ht hn, Option.toList_none, List.append_nil]
    exact h.truthful
  · obtain ⟨i, hi⟩ := Option.ne_none_iff_exists'.1 fun hj => hok ⟨ht, hn, hj⟩
    exact ⟨countTruthful_serverTake h hrun ht i hi _, h.request, fun hr => by cases hr⟩
  · obtain ⟨i, hi⟩ := Option.ne_none_iff_exists'.1 fun hj => hok ⟨ht, hn, hj⟩
    refine ⟨?_, fun j hj => ⟨(h.request j hj).1, fun _ => ?_⟩, fun _ ht' => ?_⟩
    · unfold CountTruthful; rw [serverReset_clientCount]
      exact countTruthful_serverTake h hrun ht i hi _
    · rw [serverReset_msgBuf]; exact hn
    · rw [not_serverTakes_reset (serverTakes_markRead_zero _)] at ht'; cases ht'
  · refine ⟨?_, fun j hj => ?_, fun _ ht' => ?_⟩
    · unfold CountTruthful
      rw [serverReset_clientCount, joinsDone_serverTake, joiner_eq_none h ht hn, Option.toList_none, List.append_nil]
      exact h.truthful
    · rw [joiner_serverTake, joiner_eq_none h ht hn] at hj; cases hj
    · rw [not_serverTakes_reset (serverTakes_markRead_zero _)] at ht'; cases ht'

theorem CountInv.client {s t : Chat} {i : Nat} (h : CountInv s) (hs : clientStep s i = some t) : CountInv t := by
  obtain ⟨c, c', hc, -, -, ht⟩ := clientStep_cases hs
  have hlen : (s.clients.set i c').length = s.clients.length := List.length_set
  -- a written line takes the place of the join request, and its writer is no joiner
  have hw : CountInv (afterWrite s i c) := by
    unfold afterWrite
    split
    · exact ⟨h.truthful, fun j hj => (by cases hj), fun _ _ j hj => by cases hj⟩
    · exact h
  have hcl : (afterWrite s i c).clients = s.clients := ids_afterWrite s i c
  rcases ht with ⟨-, rfl⟩ | ⟨-, -, rfl⟩
  · refine ⟨?_, fun j hj => ?_, hw.fresh⟩
    · have := hw.truthful; unfold CountTruthful at this ⊢; rwa [hcl, ← hlen] at this
    · have := hw.request j hj; rwa [hcl, ← hlen] at this
  · refine ⟨?_, fun j hj => ?_, fun hr ht' => hw.fresh hr (serverTakes_of_markRead ht')⟩
    · have := hw.truthful; unfold CountTruthful at this ⊢; rwa [hcl, ← hlen] at this
    · have := hw.request j hj; rwa [hcl, ← hlen] at this

theorem CountInv.step {s t : Chat} {e : Event} (h : CountInv s) (hok : ¬ takesTypedNew s e) (hs : step s e = some t) :
    CountInv t := by
  cases e with
  | server => exact h.server hok hs
  | client i => exact h.client hs
  | typed i stdin =>
    obtain ⟨c, c', -, -, rfl⟩ := typedStep_cases hs
    have hlen : (s.clients.set i c').length = s.clients.length := List.length_set
    refine ⟨?_, fun j hj => ?_, h.fresh⟩
    · have := h.truthful; unfold CountTruthful at this ⊢; rwa [← hlen] at this
    · have := h.request j hj; rwa [← hlen] at this
  | join stdin =>
    have hlt : ∀ j ∈ s.hist.joinsDone, j < s.clients.length + 1 := fun j hj =>
      Nat.lt_succ_of_lt (h.truthful.2.2 j hj)
    obtain ⟨c, -, ⟨-, rfl⟩ | ⟨-, rfl⟩⟩ := joinStep_cases hs
    · refine ⟨⟨h.truthful.1, h.truthful.2.1, ?_⟩, fun j hj => ?_, fun _ _ j hj hmem => ?_⟩
      · simpa [History.write] using hlt
      · obtain rfl : s.clients.length = j := by simpa [History.joiner, History.write] using hj
        exact ⟨by simp, fun _ => rfl⟩
      · obtain rfl : s.clients.length = j := by simpa [History.joiner, History.write] using hj
        exact absurd (h.truthful.2.2 _ hmem) (Nat.lt_irrefl _)
    · refine ⟨⟨h.truthful.1, h.truthful.2.1, by simpa using hlt⟩, fun j hj => ?_, h.fresh⟩
      have := h.request j hj
      exact ⟨by simp; omega, this.2⟩

/-- The server counts a typed "/new". -/
theorem not_countTruthful_of_typedNew {s t : Chat} {e : Event} (h : CountInv s) (hbad : takesTypedNew s e)
    (hs : step s e = some t) : ¬ CountTruthful t := by
  have hcount := h.truthful.1
  cases e with
  | server =>
    obtain ⟨ht, hn, hj⟩ := hbad
    have hdone : (s.hist.serverTake s.shm.msgBuf).joinsDone = s.hist.joinsDone := by
      rw [joinsDone_serverTake, hj, Option.toList_none, List.append_nil]
    obtain ⟨-, ⟨ht', -⟩ | ⟨-, hc, -⟩ | ⟨-, -, -, rfl⟩ | ⟨-, -, -, rfl⟩ | ⟨-, hn', -⟩⟩ := serverStep_cases hs
    · rw [ht] at ht'; cases ht'
    · rw [hn, closes_newText] at hc; cases hc
    · intro hc
      have := hc.1
      simp only [hdone] at this
      omega
    · intro hc
      have := hc.1
      simp only [hdone, serverReset_clientCount, markRead] at this
      omega
    · exact absurd hn hn'
  | join stdin => exact hbad.elim
  | client i => exact hbad.elim
  | typed i stdin => exact hbad.elim

theorem countInv_init : CountInv init :=
  ⟨by decide, fun _ hi => (by cases hi), fun _ ht => by cases ht⟩

/-- **Along a run `client_count` is 1 plus the number of clients whose join request the server has read, exactly when
the server never reads a "/new" that a user typed.** -/
theorem count_truthful_iff (es : List Event) (s : Chat) (hrun : run step init es = some s) :
    Always step CountTruthful init es ↔ Steps step (fun s e => ¬ takesTypedNew s e) init es :=
  Run.always_iff_steps CountInv (fun _ _ _ h hok hs => h.step hok hs) (fun _ h => h.truthful)
    (fun _ _ _ h hok hs => not_countTruthful_of_typedNew h (Classical.not_not.1 hok) hs) countInv_init hrun

instance (s : Chat) (e : Event) : Decidable (takesTypedNew s e) := by
  cases e <;> unfold takesTypedNew <;> infer_instance

theorem count_truthful_of_typed_line : Always step CountTruthful init
    [.join none, .server, .client 0, .server, .typed 0 (str ['h', 'i', '\n']), .client 0, .server] :=
  (count_truthful_iff _ _ rfl).2 (by decide)

/-- The only client types "/new": the server counts a third participant. -/
theorem typed_new_is_counted : ¬ ∀ es s, run step init es = some s →
    Steps step joinFree init es → CountTruthful s := by
  intro h
  exact absurd (h [.join none, .server, .client 0, .server, .typed 0 (newText ++ [newline]), .client 0, .server] _
    rfl (by decide)) (by decide)

end Shm
end Eltex
