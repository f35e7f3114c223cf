import EltexTasks.ShmMembers
/-!
# ShmReaders — no message of the shared-memory chat is overwritten before everyone has read it

The status bytes say who has read the pending message, and the count that triggers the reset is reached only when all
of them are set: the server counts a joining client in the same section that reads its request, before it compares the
two counts.  Everything here is about runs whose join sections found no message pending.
-/
namespace Eltex
namespace Shm

open Run (run Always Steps)

/-- The index of a participant in `client_status`, as the join order fixes it. -/
def Participant.index : Participant → Nat
  | .server => 0
  | .client i => i + 1

/-- **The message in the block has been read exactly once, with its text, by the server and by every client that had
joined when it was written.** -/
def History.AllTaken (h : History) : Prop :=
  ∀ w, h.written = some w → h.takenBy .server = [w.text] ∧ ∀ i < w.readers, h.takenBy (.client i) = [w.text]

/-- The events that write `msg_buf`. -/
def writes (s : Chat) : Event → Bool
  | .join _ => !s.shm.messageNew
  | .client i => s.clients[i]?.any (clientWrites s.shm)
  | _ => false

theorem msgBuf_of_not_writes {s t : Chat} {e : Event} (hs : step s e = some t) (hw : writes s e = false) :
    t.shm.msgBuf = s.shm.msgBuf := by
  cases e with
  | server =>
    obtain ⟨-, ⟨-, rfl⟩ | ⟨-, -, rfl⟩ | ⟨-, -, -, rfl⟩ | ⟨-, -, -, rfl⟩ | ⟨-, -, -, rfl⟩⟩ := serverStep_cases hs
    · exact serverReset_msgBuf _
    · rfl
    · rfl
    · rw [serverReset_msgBuf]; rfl
    · rw [serverReset_msgBuf]; rfl
  | join stdin =>
    obtain ⟨c, -, ⟨hfree, -⟩ | ⟨-, rfl⟩⟩ := joinStep_cases hs
    · simp [writes, hfree] at hw
    · rfl
  | client i =>
    obtain ⟨c, c', hc, -, -, ht⟩ := clientStep_cases hs
    have hn : afterWrite s i c = s := by
      have : clientWrites s.shm c = false := by simpa [writes, hc] using hw
      simp [afterWrite, this]
    rw [hn] at ht
    rcases ht with ⟨-, rfl⟩ | ⟨-, -, rfl⟩ <;> rfl
  | typed i stdin =>
    obtain ⟨c, c', -, -, rfl⟩ := typedStep_cases hs
    rfl

/-! ## Status bytes -/

theorem count_set_true {st : List Bool} {k : Nat} (h : st[k]? = some false) :
    (st.set k true).count true = st.count true + 1 := by
  obtain ⟨hk, hf⟩ := List.getElem?_eq_some_iff.1 h
  rw [List.count_set hk, hf]
  simp

/-- Bytes set only below `n` are at most `n` many, and `n` many only when all below `n` are set. -/
theorem count_true_le {st : List Bool} {n : Nat} (honly : ∀ k, st[k]? = some true → k < n) : st.count true ≤ n := by
  have hdrop : (st.drop n).count true = 0 := by
    refine List.count_eq_zero.2 fun hmem => ?_
    obtain ⟨k, hk⟩ := List.mem_iff_getElem?.1 hmem
    rw [List.getElem?_drop] at hk
    have := honly _ hk
    omega
  have hsplit : st.count true = (st.take n).count true + (st.drop n).count true := by
    rw [← List.count_append, List.take_append_drop]
  have htake : (st.take n).count true ≤ (st.take n).length := List.count_le_length
  have := List.length_take_le n st
  omega

theorem all_set_of_count {st : List Bool} {n : Nat} (honly : ∀ k, st[k]? = some true → k < n)
    (hcount : n ≤ st.count true) : ∀ k < n, st[k]? = some true := by
  intro k hk
  by_contra hne
  -- the bytes set lie below `n` and miss `k`: clearing nothing, there are at most `n - 1` of them
  have hlen : n ≤ st.length := hcount.trans List.count_le_length
  have hf : st[k]? = some false := by
    obtain ⟨b, hb⟩ : ∃ b, st[k]? = some b := ⟨st.get ⟨k, by omega⟩, List.getElem?_eq_getElem _⟩
    cases b with
    | true => exact absurd hb hne
    | false => exact hb
  have hle : (st.set k true).count true ≤ n := count_true_le fun j hj => by
    by_cases hjk : j = k
    · exact hjk ▸ hk
    · rw [List.getElem?_set_ne (Ne.symm hjk)] at hj; exact honly j hj
  rw [count_set_true hf] at hle
  omega

theorem clearStatus_no_true {st : List Bool} {n : Nat} (honly : ∀ k, st[k]? = some true → k < n) :
    true ∉ clearStatus st n := by
  intro hmem
  rcases List.mem_append.1 hmem with h | h
  · exact absurd (List.eq_of_mem_replicate h) (by decide)
  · obtain ⟨k, hk⟩ := List.mem_iff_getElem?.1 h
    rw [List.getElem?_drop] at hk
    have := honly _ hk
    omega

theorem takenBy_take (h : History) (p q : Participant) (text : CString) :
    (h.take p text).takenBy q = h.takenBy q ++ (if p = q then [text] else []) := by
  unfold History.take History.takenBy
  rw [List.filter_append, List.map_append]
  congr 1
  by_cases hpq : p = q
  · simp [hpq]
  · simp [hpq]

theorem index_injective {p q : Participant} (h : p.index = q.index) : p = q := by
  cases p <;> cases q <;> simp [Participant.index] at h ⊢
  exact h

/-! ## The invariant -/

/-- The pending message: its text and readers, and who has read it, as the status bytes tell. -/
structure Pending (s : Chat) : Prop where
  written : ∃ w, s.hist.written = some w ∧ w.text = s.shm.msgBuf ∧ w.readers = s.clients.length
  taken : ∀ p : Participant, p.index < s.clients.length + 1 →
    s.hist.takenBy p = if s.shm.clientStatus[p.index]? = some true then [s.shm.msgBuf] else []
  counted : s.shm.clientStatus[0]? = some true → s.clients.length + 1 ≤ s.shm.clientCount
  uncounted : s.shm.clientStatus[0]? = some false →
    s.shm.clientCount + s.hist.joiner.toList.length = s.clients.length + 1 ∧
    (s.hist.joiner ≠ none → s.shm.msgBuf = newText)

/-- `busy` is what the server relies on, and is not claimed once it has left. -/
structure ReadInv (s : Chat) : Prop where
  ids : ∀ i c, s.clients[i]? = some c → c.clientId = i + 1
  len : s.shm.clientStatus.length = clientMax
  recvd : s.shm.msgRecvdClients = s.shm.clientStatus.count true
  only : ∀ k, s.shm.clientStatus[k]? = some true → k < s.clients.length + 1
  idle : s.shm.messageNew = false →
    true ∉ s.shm.clientStatus ∧ s.shm.clientCount = s.clients.length + 1 ∧ s.hist.AllTaken
  busy : s.shm.messageNew = true → s.server = true → Pending s

theorem status_zero {s : Chat} (h : ReadInv s) :
    s.shm.clientStatus[0]? = some true ∨ s.shm.clientStatus[0]? = some false := by
  have hlen : 0 < s.shm.clientStatus.length := by rw [h.len]; decide
  rw [List.getElem?_eq_getElem hlen]
  cases s.shm.clientStatus[0] <;> simp

theorem status_markRead {m : ShmChat} {id : Nat} (h : m.clientStatus[id]? = some false) :
    (markRead m id).clientStatus[id]? = some true := by
  obtain ⟨hlt, -⟩ := List.getElem?_eq_some_iff.1 h
  exact List.getElem?_set_self hlt

/-- **The reset is safe**: the two counts meet only when the server and every client have read the message. -/
theorem ReadInv.reset {s : Chat} (h : ReadInv s) (hs : s.server = true)
    (hread : s.shm.messageNew = true → s.shm.clientStatus[0]? = some true) :
    ReadInv { s with shm := serverReset s.shm } := by
  rcases serverReset_cases s.shm with ⟨-, e⟩ | ⟨heq, e⟩
  · rw [e]; exact h
  rw [e]
  cases hm : s.shm.messageNew with
  | false =>
    obtain ⟨hno, hcount, -⟩ := h.idle hm
    have : s.shm.clientStatus.count true = 0 := List.count_eq_zero.2 hno
    have := h.recvd
    omega
  | true =>
    have hp := h.busy hm hs
    have hge := hp.counted (hread hm)
    have hle := count_true_le h.only
    have hrecvd := h.recvd
    have hcount : s.shm.clientCount = s.clients.length + 1 := by omega
    have hall := all_set_of_count h.only (by omega)
    have hno : true ∉ clearStatus s.shm.clientStatus s.shm.clientCount :=
      clearStatus_no_true (by rw [hcount]; exact h.only)
    refine ⟨h.ids, by rw [length_clearStatus]; exact h.len, (List.count_eq_zero.2 hno).symm, fun k hk => ?_,
      fun _ => ⟨hno, hcount, fun w hw => ?_⟩, fun hn => by cases hn⟩
    · exact absurd (List.mem_iff_getElem?.2 ⟨k, hk⟩) hno
    · obtain ⟨w', hw', htext, hreaders⟩ := hp.written
      obtain rfl : w = w' := Option.some.inj (hw.symm.trans hw')
      have htaken : ∀ p : Participant, p.index < s.clients.length + 1 → s.hist.takenBy p = [w.text] := fun p hpi => by
        rw [hp.taken p hpi, if_pos (hall _ hpi), htext]
      exact ⟨htaken .server (Nat.succ_pos _), fun i hi => htaken (.client i) (by
        simp only [Participant.index]; omega)⟩

/-- **A read**: the status byte and the history say the same of the reader. -/
theorem ReadInv.mark {s : Chat} (h : ReadInv s) {p : Participant} (hp : p.index < s.clients.length + 1)
    (hf : s.shm.clientStatus[p.index]? = some false) (hm : s.shm.messageNew = true) (count : Nat) (done : List Nat)
    (hcount : s.server = true → Pending s → (s.shm.clientStatus.set p.index true)[0]? = some true →
      s.clients.length + 1 ≤ count)
    (hsame : p ≠ .server → count = s.shm.clientCount) :
    ReadInv { s with
      shm := markRead { s.shm with clientCount := count } p.index
      hist := { s.hist.take p s.shm.msgBuf with joinsDone := done } } := by
  refine ⟨h.ids, by simpa [markRead] using h.len, ?_, fun k hk => ?_, fun hn => ?_, fun _ hs => ?_⟩
  · show s.shm.msgRecvdClients + 1 = (s.shm.clientStatus.set p.index true).count true
    rw [count_set_true hf, h.recvd]
  · change (s.shm.clientStatus.set p.index true)[k]? = some true at hk
    by_cases hkp : k = p.index
    · exact hkp ▸ hp
    · rw [List.getElem?_set_ne (Ne.symm hkp)] at hk; exact h.only k hk
  · change s.shm.messageNew = false at hn
    rw [hm] at hn; cases hn
  · have hpend := h.busy hm hs
    refine ⟨hpend.written, fun q hq => ?_, hcount hs hpend, fun h0 => ?_⟩
    · show (s.hist.take p s.shm.msgBuf).takenBy q =
        if (s.shm.clientStatus.set p.index true)[q.index]? = some true then [s.shm.msgBuf] else []
      rw [takenBy_take, hpend.taken q hq]
      by_cases hpq : p = q
      · subst hpq
        obtain ⟨hlt, -⟩ := List.getElem?_eq_some_iff.1 hf
        rw [List.getElem?_set_self hlt, if_pos rfl, if_pos rfl, hf, if_neg (by decide), List.nil_append]
      · rw [List.getElem?_set_ne fun hidx => hpq (index_injective hidx), if_neg hpq, List.append_nil]
    · -- the server's byte is still clear, so the reader is a client and the count is as it was
      change (s.shm.clientStatus.set p.index true)[0]? = some false at h0
      have hne : p.index ≠ 0 := by
        intro hz
        obtain ⟨hlt, -⟩ := List.getElem?_eq_some_iff.1 hf
        rw [hz, List.getElem?_set_self (by omega)] at h0; cases h0
      have hps : p ≠ .server := fun hps => hne (by rw [hps]; rfl)
      rw [List.getElem?_set_ne hne] at h0
      have := hpend.uncounted h0
      rw [← hsame hps] at this
      exact this

/-- The server reads the message, with a count that is at least that of the participants, and ends its section. -/
theorem ReadInv.take {s : Chat} (h : ReadInv s) (hrun : s.server = true) (ht : serverTakes s.shm = true) {count : Nat}
    (done : List Nat) (hcount : Pending s → s.clients.length + 1 ≤ count) :
    ReadInv { s with
      shm := serverReset (markRead { s.shm with clientCount := count } 0)
      hist := { s.hist.take .server s.shm.msgBuf with joinsDone := done } } := by
  obtain ⟨hf, hm⟩ := (serverTakes_iff s.shm).1 ht
  have hmark := h.mark (p := .server) (Nat.succ_pos _) hf hm count done (fun _ hp _ => hcount hp)
    (fun hne => absurd rfl hne)
  apply hmark.reset hrun
  intro _
  exact status_markRead (m := { s.shm with clientCount := count }) hf

theorem ReadInv.server {s t : Chat} (h : ReadInv s) (hs : serverStep s = some t) : ReadInv t := by
  obtain ⟨hrun, ⟨ht, rfl⟩ | ⟨ht, -, rfl⟩ | ⟨ht, -, -, rfl⟩ | ⟨ht, hn, -, rfl⟩ | ⟨ht, hn, -, rfl⟩⟩ := serverStep_cases hs
  · refine h.reset hrun fun hm => (status_zero h).resolve_right fun hf => ?_
    rw [(serverTakes_iff s.shm).2 ⟨hf, hm⟩] at ht; cases ht
  · have hm := ((serverTakes_iff s.shm).1 ht).2
    exact ⟨h.ids, h.len, h.recvd, h.only, fun hn => (by rw [hm] at hn; cases hn), fun _ hr => by cases hr⟩
  · have hm := ((serverTakes_iff s.shm).1 ht).2
    refine ⟨h.ids, h.len, h.recvd, h.only, fun hn => ?_, fun _ hr => by cases hr⟩
    change s.shm.messageNew = false at hn
    rw [hm] at hn; cases hn
  · have hle : s.hist.joiner.toList.length ≤ 1 := by cases s.hist.joiner <;> simp
    refine h.take hrun ht _ fun hp => ?_
    have := (hp.uncounted ((serverTakes_iff s.shm).1 ht).1).1
    omega
  · refine h.take hrun ht _ fun hp => ?_
    obtain ⟨hcount, hnew⟩ := hp.uncounted ((serverTakes_iff s.shm).1 ht).1
    have hj : s.hist.joiner = none := Classical.byContradiction fun hj => hn (hnew hj)
    rw [hj] at hcount
    exact Nat.le_of_eq hcount.symm

/-- **A write**: nobody has read the new message, and a join request is yet to be counted. -/
theorem ReadInv.written {s : Chat} (h : ReadInv s) (hfree : s.shm.messageNew = false) (cs : List Client) (o : Origin)
    (text : CString) (hids : ∀ i c, cs[i]? = some c → c.clientId = i + 1)
    (hcount : (s.hist.write ⟨o, text, cs.length⟩).joiner.toList.length + s.clients.length = cs.length)
    (hnew : (s.hist.write ⟨o, text, cs.length⟩).joiner ≠ none → text = newText) :
    ReadInv { s with shm := { s.shm with msgBuf := text, messageNew := true }, clients := cs,
                     hist := s.hist.write ⟨o, text, cs.length⟩ } := by
  obtain ⟨hno, hcnt, -⟩ := h.idle hfree
  have hclear : ∀ k, s.shm.clientStatus[k]? ≠ some true := fun k hk => hno (List.mem_iff_getElem?.2 ⟨k, hk⟩)
  refine ⟨hids, h.len, h.recvd, fun k hk => absurd hk (hclear k), fun hn => (by cases hn), fun _ _ => ?_⟩
  refine ⟨⟨_, rfl, rfl, rfl⟩, fun p _ => ?_, fun h0 => absurd h0 (hclear 0), fun _ => ⟨?_, hnew⟩⟩
  · show ([] : List CString) = _
    rw [if_neg (hclear _)]
  · show s.shm.clientCount + (s.hist.write ⟨o, text, cs.length⟩).joiner.toList.length = cs.length + 1
    omega

/-- A client's own fields may change, its id stays. -/
theorem ReadInv.setClient {s : Chat} (h : ReadInv s) {i : Nat} {c c' : Client} (hc : s.clients[i]? = some c)
    (hid : c'.clientId = c.clientId) : ReadInv { s with clients := s.clients.set i c' } := by
  have hlen : (s.clients.set i c').length = s.clients.length := List.length_set
  refine ⟨fun j d hj => ?_, h.len, h.recvd, ?_, fun hm => ?_, fun hm hr => ?_⟩
  · by_cases hij : i = j
    · subst hij
      rw [List.getElem?_set_self (List.getElem?_eq_some_iff.1 hc).1] at hj
      obtain rfl := Option.some.inj hj
      rw [hid]; exact h.ids i c hc
    · rw [List.getElem?_set_ne hij] at hj
      exact h.ids j d hj
  · simpa only [hlen] using h.only
  · simpa only [hlen] using h.idle hm
  · have hp := h.busy hm hr
    exact ⟨by simpa only [hlen] using hp.written, by simpa only [hlen] using hp.taken,
      by simpa only [hlen] using hp.counted, by simpa only [hlen] using hp.uncounted⟩

theorem ReadInv.client {s t : Chat} {i : Nat} (h : ReadInv s) (hs : clientStep s i = some t) : ReadInv t := by
  obtain ⟨c, c', hc, -, hid, ht⟩ := clientStep_cases hs
  have hci : c.clientId = i + 1 := h.ids i c hc
  have hi : i < s.clients.length := (List.getElem?_eq_some_iff.1 hc).1
  have hw : ReadInv (afterWrite s i c) := by
    unfold afterWrite
    split
    · rename_i hwr
      exact h.written (messageNew_of_clientWrites hwr) _ _ _ h.ids (Nat.zero_add _) (fun hj => absurd rfl hj)
    · exact h
  have hcl := ids_afterWrite s i c
  rw [hci] at ht
  rw [← hcl] at hc hi ht
  rcases ht with ⟨-, rfl⟩ | ⟨hf, hnew, rfl⟩
  · exact hw.setClient hc hid
  · refine (hw.mark (p := .client i) (Nat.succ_lt_succ hi) hf hnew (afterWrite s i c).shm.clientCount _
      (fun _ hp h0 => hp.counted ?_) (fun _ => rfl)).setClient hc hid
    rwa [List.getElem?_set_ne (show (Participant.client i).index ≠ 0 from Nat.succ_ne_zero i)] at h0

theorem ReadInv.step {s t : Chat} {e : Event} (h : ReadInv s) (hok : joinFree s e) (hs : step s e = some t) :
    ReadInv t := by
  cases e with
  | server => exact h.server hs
  | client i => exact h.client hs
  | typed i stdin =>
    obtain ⟨c, c', hc, hid, rfl⟩ := typedStep_cases hs
    exact h.setClient hc hid
  | join stdin =>
    obtain ⟨c, -, ⟨hfree, rfl⟩ | ⟨hnew, -⟩⟩ := joinStep_cases hs
    case inr => rw [show s.shm.messageNew = false from hok] at hnew; cases hnew
    have hcount := (h.idle hfree).2.1
    have hlen : (s.clients ++ [{ c with clientId := s.shm.clientCount }]).length = s.clients.length + 1 := by simp
    have := h.written hfree (s.clients ++ [{ c with clientId := s.shm.clientCount }])
      (.join s.clients.length) newText (fun i d hi => ?_) (by rw [hlen]; exact Nat.add_comm _ _) (fun _ => rfl)
    · rw [hlen] at this; exact this
    · by_cases hold : i < s.clients.length
      · rw [List.getElem?_append_left hold] at hi
        exact h.ids i d hi
      · have hlt := (List.getElem?_eq_some_iff.1 hi).1
        rw [hlen] at hlt
        obtain rfl : i = s.clients.length := by omega
        rw [List.getElem?_concat_length] at hi
        obtain rfl := Option.some.inj hi
        exact hcount

theorem readInv_init : ReadInv init :=
  ⟨fun _ _ h => (by cases h), rfl, by decide, fun k hk => absurd (List.mem_iff_getElem?.2 ⟨k, hk⟩) (by decide),
    fun _ => ⟨by decide, rfl, fun _ hw => by cases hw⟩, fun hn => by cases hn⟩

/-- **The count of the readers is the number of status bytes set, and a message is written over only when everyone has
read it**, in every run whose join sections found no message pending.  (The `CLIENT_MAX`-th client has no status byte;
a run ends where one is accessed outside `client_status`.) -/
theorem kept_until_read (es : List Event) (s : Chat) (hrun : run step init es = some s)
    (hjoin : Steps step joinFree init es) :
    s.shm.msgRecvdClients = s.shm.clientStatus.count true ∧
    ∀ e t, step s e = some t → writes s e = true → s.hist.AllTaken := by
  have h : ReadInv s := Run.run_inv_of_steps (fun _ _ _ h hok hs => h.step hok hs) es init s readInv_init hjoin hrun
  refine ⟨h.recvd, fun e t _ hw => (h.idle ?_).2.2⟩
  cases e with
  | server => cases hw
  | typed i stdin => cases hw
  | join stdin => simpa [writes] using hw
  | client i =>
    rw [writes, Option.any_eq_true] at hw
    obtain ⟨c, -, hwr⟩ := hw
    exact messageNew_of_clientWrites hwr

/-- One client joins, the server counts it, a line is typed and read by both, and a second line waits. -/
def oneLineRead : List Event :=
  [.join none, .server, .client 0, .server, .typed 0 (str ['h', 'i', '\n']), .client 0, .server,
    .typed 0 (str ['o', 'k', '\n'])]

theorem kept_until_read_of_oneLineRead : ((run step init oneLineRead).get rfl).hist.AllTaken :=
  (kept_until_read oneLineRead _ (Option.some_get rfl).symm (by decide)).2 (.client 0) _ rfl rfl

end Shm
end Eltex
