import EltexTasks.ChatUpdates
/-!
# ChatCopies — the array accesses of `send_updates`

The indices at which `send_updates` reads `message_buf` and the positions at which it writes `messages_to_send`.  For
every start and write position in the ring the copy loops fill the array that was counted for them, and nothing outside
the buffer is read.  The block asked of `malloc` has one byte for each message, so it never holds them
(`send_updates_never_fits`).
-/
namespace Eltex
namespace MsgQueue

open Run (run Steps)

/-- The indices a search loop looks at: up to the first that `p` accepts. -/
def visited (p : Nat → Bool) : List Nat → List Nat
  | [] => []
  | i :: is => i :: if p i then [] else visited p is

/-- The indices read to find `buf_update_start_ptr`. -/
def startReads (buf : List Message) (bufSize iter : Nat) (last : Int) : List Nat :=
  iter ::
    if (slot buf iter).text = none then []
    else
      visited (fun i => (slot buf i).id == toSize last) (List.range' iter (bufSize - iter)) ++
        match (List.range' iter (bufSize - iter)).find? (fun i => (slot buf i).id == toSize last) with
        | some _ => []
        | none => visited (fun i => toLong (slot buf i).id == last) (List.range iter)

/-- The copy loops: an index in `messages_to_send` and the index in `message_buf` it is copied from. -/
def copyIndices (bufSize iter : Nat) (start : Int) : List (Nat × Nat) :=
  if start < toLong iter then
    (List.range (iter - toSize start)).map fun i => (i, toSize start + i)
  else if iter ≤ toSize start then
    (List.range (bufSize - toSize start)).map (fun i => (i, toSize start + i)) ++
      (List.range iter).map fun i => (i + bufSize - toSize start, i)
  else []

/-- `malloc(messages_to_send_count)` -/
def blockBytes (count : Nat) : Nat := count

/-! ## The accesses are those of the code's model -/

theorem copies_eq_copyIndices (buf : List Message) (bufSize iter : Nat) (start : Int) :
    copies buf bufSize iter start = (copyIndices bufSize iter start).map fun w => (w.1, slot buf w.2) := by
  unfold copies copyIndices
  split
  · rw [List.map_map]; rfl
  · split
    · rw [List.map_append, List.map_map, List.map_map]; rfl
    · rfl

theorem visited_subset (p : Nat → Bool) : ∀ (l : List Nat), visited p l ⊆ l
  | [] => List.Subset.refl _
  | i :: is => by
    unfold visited
    split
    · simp
    · exact List.cons_subset_cons i (visited_subset p is)

theorem visited_congr {p q : Nat → Bool} : ∀ (l : List Nat), (∀ i ∈ visited p l, p i = q i) →
    visited p l = visited q l ∧ l.find? p = l.find? q
  | [], _ => ⟨rfl, rfl⟩
  | i :: is, h => by
    have hi : p i = q i := h i (by unfold visited; exact List.mem_cons_self)
    unfold visited
    rw [List.find?_cons, List.find?_cons, ← hi]
    cases hp : p i with
    | true => exact ⟨rfl, rfl⟩
    | false =>
      obtain ⟨hvisited, hfind⟩ := visited_congr is fun j hj => h j (by unfold visited; simp [hp, hj])
      exact ⟨by simp [hvisited], hfind⟩

/-- **The start depends on the slots read for it**, whatever the other slots hold. -/
theorem updateStart_congr {buf buf' : List Message} {bufSize iter : Nat} {last : Int}
    (h : ∀ i ∈ startReads buf bufSize iter last, slot buf i = slot buf' i) :
    updateStart buf bufSize iter last = updateStart buf' bufSize iter last := by
  unfold startReads at h
  unfold updateStart
  rw [← h iter List.mem_cons_self]
  by_cases hfree : (slot buf iter).text = none
  · rw [if_pos hfree, if_pos hfree]
  rw [if_neg hfree] at h ⊢
  rw [if_neg hfree]
  have hfirst := (visited_congr (p := fun i => (slot buf i).id == toSize last)
    (q := fun i => (slot buf' i).id == toSize last) (List.range' iter (bufSize - iter)) fun i hi => by
      simp only [h i (List.mem_cons_of_mem _ (List.mem_append_left _ hi))]).2
  rw [← hfirst]
  cases hfind : (List.range' iter (bufSize - iter)).find? (fun i => (slot buf i).id == toSize last) with
  | some i => rfl
  | none =>
    have hsecond := (visited_congr (p := fun i => toLong (slot buf i).id == last)
      (q := fun i => toLong (slot buf' i).id == last) (List.range iter) fun i hi => by
        simp only [h i (List.mem_cons_of_mem _ (List.mem_append_right _ (by rw [hfind]; exact hi)))]).2
    simp only [hsecond]

/-! ## Every start and write position -/

/-- The two loops that copy across the end of the buffer fill one stretch. -/
theorem wrapped_fst {n iter start : Nat} (hstart : start < n) :
    ((List.range (n - start)).map (fun i => (i, start + i)) ++
      (List.range iter).map fun i => (i + n - start, i)).map Prod.fst = List.range (n - start + iter) := by
  rw [List.map_append, List.map_map, List.map_map, List.range_add]
  congr 1
  · exact List.map_id' _
  · refine List.map_congr_left fun i _ => ?_
    show i + n - start = n - start + i
    omega

/-- **The counts agree with the copies**: the loops write the elements that were counted, each once and in order. -/
theorem copyIndices_fst {n iter start : Nat} (hn : n < 2 ^ 60) (hiter : iter < n) (hstart : start < n) :
    (copyIndices n iter start).map Prod.fst = List.range (toSendCount n iter start) := by
  unfold copyIndices toSendCount
  rw [toSize_of_lt (by simp only [sizeRange]; omega), toLong_of_lt (by omega)]
  simp only [sizeRange]
  by_cases hlt : start < iter
  · have hcount : (iter + 2 ^ 64 - start) % 2 ^ 64 = iter - start := by omega
    rw [if_pos (by omega), if_pos (by omega), hcount, List.map_map]
    exact List.map_id' _
  · rw [if_neg (by omega), if_pos (by omega), if_neg (by omega), wrapped_fst hstart]
    congr 1
    split <;> omega

theorem toSendCount_pos {n iter start : Nat} (hn : n < 2 ^ 60) (hiter : iter < n) (hstart : start < n) :
    1 ≤ toSendCount n iter start := by
  unfold toSendCount
  rw [toSize_of_lt (by simp only [sizeRange]; omega), toLong_of_lt (by omega)]
  simp only [sizeRange]
  split
  · omega
  · split <;> omega

theorem copyIndices_snd_lt {n iter start : Nat} (hn : n < 2 ^ 60) (hiter : iter < n) (hstart : start < n)
    {w : Nat × Nat} (hw : w ∈ copyIndices n iter start) : w.2 < n := by
  unfold copyIndices at hw
  rw [toSize_of_lt (by simp only [sizeRange]; omega), toLong_of_lt (by omega)] at hw
  split at hw
  · obtain ⟨i, hi, rfl⟩ := List.mem_map.1 hw
    rw [List.mem_range] at hi
    show start + i < n
    omega
  · rw [if_pos (by omega), List.mem_append] at hw
    rcases hw with hw | hw
    · obtain ⟨i, hi, rfl⟩ := List.mem_map.1 hw
      rw [List.mem_range] at hi
      show start + i < n
      omega
    · obtain ⟨i, hi, rfl⟩ := List.mem_map.1 hw
      rw [List.mem_range] at hi
      exact hi.trans hiter

theorem block_too_small {count : Nat} (h : 1 ≤ count) : ¬ count * messageSize ≤ blockBytes count := by
  unfold blockBytes messageSize
  omega

theorem startReads_lt {buf : List Message} {n iter : Nat} (hiter : iter < n) (last : Int) {i : Nat}
    (hi : i ∈ startReads buf n iter last) : i < n := by
  unfold startReads at hi
  rcases List.mem_cons.1 hi with rfl | hi
  · exact hiter
  split at hi
  · cases hi
  rcases List.mem_append.1 hi with hi | hi
  · have := visited_subset _ _ hi
    rw [List.mem_range'_1] at this
    omega
  · split at hi
    · cases hi
    · have := visited_subset _ _ hi
      rw [List.mem_range] at this
      omega

/-! ## The calls of the server -/

/-- The arguments of a call of `send_updates`, without the clients. -/
structure UpdatesCall where
  last : Int
  messageBuf : List Message
  messageBufSize : Nat
  messageBufIter : Nat
deriving DecidableEq, Repr

namespace UpdatesCall

variable (c : UpdatesCall)

def start : Int := updateStart c.messageBuf c.messageBufSize c.messageBufIter c.last

/-- `messages_to_send_count` -/
def count : Nat := toSendCount c.messageBufSize c.messageBufIter c.start

/-- The indices into `message_buf`. -/
def reads : List Nat :=
  startReads c.messageBuf c.messageBufSize c.messageBufIter c.last ++
    (copyIndices c.messageBufSize c.messageBufIter c.start).map Prod.snd

/-- The positions of `messages_to_send` the copy loops write, in order. -/
def writes : List Nat := (copyIndices c.messageBufSize c.messageBufIter c.start).map Prod.fst

/-- Nothing is read outside `message_buf`; each element counted is written, and there is a last one to read. -/
def Indexed : Prop := (∀ i ∈ c.reads, i < c.messageBufSize) ∧ c.writes = List.range c.count ∧ 1 ≤ c.count

/-- The block holds the messages counted. -/
def Fits : Prop := c.count * messageSize ≤ blockBytes c.count

/-- **The accesses of the call are safe.** -/
def Safe : Prop := c.Indexed ∧ c.Fits

instance : Decidable c.Indexed := inferInstanceAs (Decidable (_ ∧ _))

instance : Decidable c.Fits := inferInstanceAs (Decidable (_ ≤ _))

instance : Decidable c.Safe := inferInstanceAs (Decidable (_ ∧ _))

end UpdatesCall

/-- **The call depends on the slots it reads**, whatever the other slots hold. -/
theorem UpdatesCall.sendUpdates_congr (c : UpdatesCall) {buf : List Message}
    (h : ∀ i ∈ c.reads, slot c.messageBuf i = slot buf i) (clientCount : Nat) :
    sendUpdates clientCount c.last c.messageBuf c.messageBufSize c.messageBufIter =
      sendUpdates clientCount c.last buf c.messageBufSize c.messageBufIter := by
  have hstart : c.start = updateStart buf c.messageBufSize c.messageBufIter c.last :=
    updateStart_congr fun i hi => h i (List.mem_append_left _ hi)
  have hcopies : copies c.messageBuf c.messageBufSize c.messageBufIter c.start =
      copies buf c.messageBufSize c.messageBufIter c.start := by
    rw [copies_eq_copyIndices, copies_eq_copyIndices]
    refine List.map_congr_left fun w hw => ?_
    rw [h w.2 (List.mem_append_right _ (List.mem_map_of_mem hw))]
  rw [hstart] at hcopies
  unfold UpdatesCall.start at hstart
  unfold sendUpdates
  simp only [hstart, hcopies]

/-- The call of `send_updates` made for a message, if it makes one. -/
def updatesCall (s : Server) (m : Received) : Option UpdatesCall :=
  if s.running = true ∧ m.prio = 1 then
    (senderOf s m).map fun client =>
      let (buf, iter) := addMessage s.messageBufIter s.messageBufSize s.messageBuf m.buf client s.messageCount
      ⟨s.lastUpdateMessageId, buf, s.messageBufSize, iter⟩
  else none

theorem handleText_eq {s : Server} {m : Received} (hrun : s.running = true) (hm : m.prio = 1) :
    handleText s m = (updatesCall s m).bind fun c =>
      (sendUpdates s.clients.length c.last c.messageBuf c.messageBufSize c.messageBufIter).map fun (last, sends) =>
        { s with
          messageBuf := c.messageBuf
          messageBufIter := c.messageBufIter
          messageCount := (s.messageCount + 1) % sizeRange
          lastUpdateMessageId := last
          sent := s.sent ++ sends } := by
  unfold handleText updatesCall
  rw [if_pos ⟨hrun, hm⟩]
  cases senderOf s m with
  | none => rfl
  | some client => rw [Option.bind_some, Option.map_some, Option.bind_some]

/-- **Every message the server takes** keeps what is known of its buffer. -/
theorem Buffered.of_receive {s t : Server} {xs : List Message} {m : Received} (h : Buffered s xs)
    (ht : receive s m = some t) : ∃ ys, Buffered t ys := by
  obtain ⟨-, ⟨-, -, rfl⟩ | ⟨-, rfl⟩ | ⟨-, hsender, htext⟩ | ⟨-, -, -, rfl⟩⟩ := receive_cases ht
  · exact ⟨xs, h.stored, h.iter, h.count, h.last⟩
  · exact ⟨xs, h.stored, h.iter, h.count, h.last⟩
  · obtain ⟨t', x, ht', -, -, -, hb⟩ := h.text hsender
    obtain rfl := Option.some.inj (htext.symm.trans ht')
    exact ⟨xs ++ [x], hb⟩
  · exact ⟨xs, h⟩

/-- **A call with its start in the ring** reads and writes where it should, into a block that is too small. -/
theorem UpdatesCall.indexed_of_start {c : UpdatesCall} {start : Nat} (hn : c.messageBufSize < 2 ^ 60)
    (hiter : c.messageBufIter < c.messageBufSize) (hstart : c.start = start) (hlt : start < c.messageBufSize) :
    c.Indexed ∧ ¬ c.Fits := by
  have hcount : 1 ≤ c.count := by
    unfold UpdatesCall.count
    rw [hstart]
    exact toSendCount_pos hn hiter hlt
  refine ⟨⟨fun i hi => ?_, ?_, hcount⟩, ?_⟩
  · rcases List.mem_append.1 hi with hi | hi
    · exact startReads_lt hiter _ hi
    · rw [hstart] at hi
      obtain ⟨w, hw, rfl⟩ := List.mem_map.1 hi
      exact copyIndices_snd_lt hn hiter hlt hw
  · unfold UpdatesCall.writes UpdatesCall.count
    rw [hstart]
    exact copyIndices_fst hn hiter hlt
  · exact block_too_small hcount

theorem Buffered.call {s : Server} {xs : List Message} (h : Buffered s xs) {m : Received} {c : UpdatesCall}
    (hc : updatesCall s m = some c) : c.Indexed ∧ ¬ c.Fits := by
  unfold updatesCall at hc
  split at hc
  case isFalse => cases hc
  obtain ⟨client, -, rfl⟩ := Option.map_eq_some_iff.1 hc
  obtain ⟨hstored, hiter⟩ := h.added m.buf client
  have hstart := updateStart_added hstored
  rw [← h.last, ← hiter] at hstart
  refine UpdatesCall.indexed_of_start h.stored.lt ?_ hstart (Nat.mod_lt _ h.stored.pos)
  exact hiter.trans_lt (Nat.mod_lt _ h.stored.pos)

theorem exists_buffered {n : Nat} (hn : 1 ≤ n) {s₀ s : Server} (h₀ : chatServer n = some s₀) {ms : List Received}
    (hrun : run receive s₀ ms = some s) : ∃ xs, Buffered s xs := by
  have hstep : ∀ s m t, (∃ xs, Buffered s xs) → receive s m = some t → ∃ ys, Buffered t ys :=
    fun s m t ⟨_, hs⟩ ht => hs.of_receive ht
  exact Run.run_inv hstep ⟨[], buffered_init hn h₀⟩ hrun

/-- **The block never holds the messages.**  Along every run each call of `send_updates` reads inside the buffer and
writes the elements it counted, at least one; the block it asks for is too small for them.  So the accesses are safe
only in the runs in which it is not called. -/
theorem send_updates_never_fits (n : Nat) (hn : 1 ≤ n) (s₀ : Server) (h₀ : chatServer n = some s₀)
    (ms : List Received) :
    Steps receive (fun s m => ∀ c ∈ updatesCall s m, c.Indexed ∧ ¬ c.Safe) s₀ ms ∧
    (Steps receive (fun s m => ∀ c ∈ updatesCall s m, c.Safe) s₀ ms ↔
      Steps receive (fun s m => updatesCall s m = none) s₀ ms) := by
  have hcalls : Steps receive (fun s m => ∀ c ∈ updatesCall s m, c.Indexed ∧ ¬ c.Safe) s₀ ms := by
    intro pre m s _ hrun c hc
    obtain ⟨xs, hb⟩ := exists_buffered hn h₀ hrun
    obtain ⟨hindexed, hfits⟩ := hb.call (Option.mem_def.1 hc)
    exact ⟨hindexed, fun hsafe => hfits hsafe.2⟩
  refine ⟨hcalls, fun hsafe pre m s hpre hrun => ?_, fun hnone pre m s hpre hrun c hc => ?_⟩
  · refine Option.eq_none_iff_forall_not_mem.2 fun c hc => ?_
    exact (hcalls pre m s hpre hrun c hc).2 (hsafe pre m s hpre hrun c hc)
  · rw [hnone pre m s hpre hrun] at hc
    cases hc

/-- A connection and its first text. -/
def firstText : List Received := [⟨2, str ['a'], []⟩, ⟨1, str ['a', ':', 'x'], []⟩]

theorem send_updates_never_fits_firstText :
    Steps receive (fun s m => ∀ c ∈ updatesCall s m, c.Indexed ∧ ¬ c.Safe) ((chatServer 10).get rfl) firstText ∧
    (Steps receive (fun s m => ∀ c ∈ updatesCall s m, c.Safe) ((chatServer 10).get rfl) firstText ↔
      Steps receive (fun s m => updatesCall s m = none) ((chatServer 10).get rfl) firstText) :=
  send_updates_never_fits 10 (by decide) _ (Option.some_get rfl).symm firstText

/-- One message of 24 bytes is copied into a block of one byte. -/
theorem first_text_overruns :
    ¬ Steps receive (fun s m => ∀ c ∈ updatesCall s m, c.Safe) ((chatServer 10).get rfl) firstText := by
  decide

end MsgQueue
end Eltex
