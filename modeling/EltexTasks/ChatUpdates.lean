import EltexTasks.ChatServer
import EltexTasks.Ring
import EltexTasks.Update
/-!
# ChatUpdates — what `send_updates` sends

`xs` are the messages stored so far, the `i`-th with id `i`, and the last `c` of them are pending.  While they are still
in the buffer, and the last update is too or the pending ones begin at its first slot, the start the search finds is the
slot of the first of them (`updateStart_eq`) and the copy loops read them off in order (`copies_eq`).
-/
namespace Eltex
namespace MsgQueue

/-! ## `size_t` and `long` -/

theorem toLong_of_lt {n : Nat} (h : n < 2 ^ 63) : toLong n = n := by
  unfold toLong
  apply Int.bmod_eq_of_le_mul_two <;> simp only [sizeRange] <;> omega

theorem toSize_toLong (n : Nat) : toSize (toLong n) = n % sizeRange := by
  unfold toSize toLong
  rw [Int.bmod_emod]
  rfl

theorem toLong_eq_iff (a b : Nat) : toLong a = toLong b ↔ a % sizeRange = b % sizeRange := by
  constructor
  · intro h
    rw [← toSize_toLong a, h, toSize_toLong]
  · intro h
    have hab : (a : Int) % sizeRange = (b : Int) % sizeRange := by exact_mod_cast h
    unfold toLong
    rw [← Int.emod_bmod, hab, Int.emod_bmod]

theorem toSize_of_lt {n : Nat} (h : n < sizeRange) : toSize n = n := by
  unfold toSize; simp only [sizeRange] at *; omega

/-! ## The buffer -/

/-- **The buffer after the messages `xs`**: a circular buffer of `n` slots that an array of `message_t` can have, the
`i`-th message with id `i`. -/
structure Stored (buf xs : List Message) (n : Nat) : Prop where
  holds : Ring.Holds zeroMessage buf xs
  length : buf.length = n
  pos : 0 < n
  fits : n * messageSize < sizeRange
  ids : ∀ i x, xs[i]? = some x → x.id = i % sizeRange
  texts : ∀ x ∈ xs, x.text ≠ none

theorem Stored.lt {buf xs : List Message} {n : Nat} (h : Stored buf xs n) : n < 2 ^ 60 := by
  have := h.fits
  simp only [messageSize, sizeRange] at this
  omega

/-- A message not yet overwritten is in its slot. -/
theorem Stored.slot_eq {buf xs : List Message} {n i : Nat} {x : Message} (h : Stored buf xs n) (hx : xs[i]? = some x)
    (hi : xs.length ≤ i + n) : slot buf (i % n) = x := by
  have := h.holds.recent i x hx (by rw [h.length]; exact hi)
  rw [h.length] at this
  unfold slot; rw [this]; rfl

theorem Stored.slot_unused {buf xs : List Message} {n j : Nat} (h : Stored buf xs n) (hj : xs.length ≤ j) (hn : j < n) :
    slot buf j = zeroMessage := by
  unfold slot; rw [h.holds.unused j hj (by rw [h.length]; exact hn)]; rfl

/-- In a full buffer every slot holds one of the last `n` messages. -/
theorem Stored.exists_of_slot {buf xs : List Message} {n j : Nat} (h : Stored buf xs n) (hfull : n ≤ xs.length)
    (hj : j < n) : ∃ i x, xs[i]? = some x ∧ i % n = j ∧ xs.length ≤ i + n ∧ slot buf j = x := by
  -- the index in `[length - n, length)` with the residue of `j`
  have hpos := h.pos
  let d := (j + n * xs.length - (xs.length - n)) % n
  have hge : xs.length - n ≤ j + n * xs.length := by
    have : xs.length ≤ n * xs.length := Nat.le_mul_of_pos_left _ hpos
    omega
  have hd : d < n := Nat.mod_lt _ hpos
  have hi : xs.length - n + d < xs.length := by omega
  have hmod : (xs.length - n + d) % n = j := by
    show (xs.length - n + (j + n * xs.length - (xs.length - n)) % n) % n = j
    rw [Nat.add_mod_mod, Nat.add_sub_cancel' hge, Nat.add_mul_mod_self_left, Nat.mod_eq_of_lt hj]
  refine ⟨xs.length - n + d, xs[xs.length - n + d], List.getElem?_eq_getElem hi, hmod, by omega, ?_⟩
  rw [← hmod]
  exact h.slot_eq (List.getElem?_eq_getElem hi) (by omega)

/-- **One more message**, the next id its own. -/
theorem Stored.add {buf xs : List Message} {n messageId : Nat} (h : Stored buf xs n) (text : CString)
    (client : ClientRec) (hid : messageId = xs.length % sizeRange) :
    Stored (addMessage (xs.length % n) n buf text client messageId).1
      (xs ++ [{ text := some text, clientId := client.id, id := messageId }]) n := by
  unfold addMessage
  refine ⟨?_, by rw [List.length_set]; exact h.length, h.pos, h.fits, fun i y hy => ?_, fun y hy => ?_⟩
  · have := h.holds.push (by rw [h.length]; exact h.pos) { text := some text, clientId := client.id, id := messageId }
    rwa [h.length] at this
  · rcases Nat.lt_trichotomy i xs.length with hi | rfl | hi
    · rw [List.getElem?_append_left hi] at hy; exact h.ids i y hy
    · rw [List.getElem?_concat_length] at hy
      rw [← Option.some.inj hy]; exact hid
    · rw [List.getElem?_eq_none (by simp; omega)] at hy; cases hy
  · rcases List.mem_append.1 hy with hy | hy
    · exact h.texts y hy
    · rw [List.mem_singleton.1 hy]; exact Option.some_ne_none text

theorem stored_nil {buf : List Message} {n : Nat} (hn : 1 ≤ n) (hbuf : callocMessages n = some buf) :
    Stored buf [] n := by
  unfold callocMessages at hbuf
  split at hbuf
  case isFalse => cases hbuf
  case isTrue hfits =>
  obtain rfl := Option.some.inj hbuf
  exact ⟨Ring.holds_replicate _ _, List.length_replicate, hn, hfits, fun i x h => (by cases h), fun x h => by cases h⟩

theorem find?_unique {l : List Nat} {p : Nat → Bool} {q : Nat} (hp : ∀ x ∈ l, p x = true ↔ x = q) :
    l.find? p = if q ∈ l then some q else none := by
  by_cases hq : q ∈ l
  · rw [if_pos hq]
    cases hf : l.find? p with
    | none => exact absurd ((hp q hq).2 rfl) (List.find?_eq_none.1 hf q hq)
    | some x => rw [(hp x (List.mem_of_find?_eq_some hf)).1 (List.find?_some hf)]
  · rw [if_neg hq]
    exact List.find?_eq_none.2 fun x hx hpx => hq ((hp x hx).1 hpx ▸ hx)

/-- The id before `p`, as a `long`: -1 where `p` is 0. -/
theorem toLong_pred {p : Nat} (hp : p < 2 ^ 63) : toLong (p + (sizeRange - 1)) + 1 = p := by
  cases p with
  | zero => decide
  | succ p =>
    have h : toLong (p + 1 + (sizeRange - 1)) = toLong p := by
      rw [toLong_eq_iff]; simp only [sizeRange]; omega
    rw [h, toLong_of_lt (by omega)]
    rfl

/-- In a full buffer the id before the first pending message is in one slot, or in none. -/
theorem slot_id_iff {buf xs : List Message} {n p c j : Nat} (h : Stored buf xs n) (hpc : p + c = xs.length)
    (hcn : c ≤ n) (hfull : n ≤ xs.length) (hj : j < n) :
    (slot buf j).id % sizeRange = (p + (sizeRange - 1)) % sizeRange ↔ (0 < p ∧ c < n) ∧ j = (p - 1) % n := by
  have hn := h.lt
  constructor
  · intro hid
    obtain ⟨i, x, hx, hij, hlen, hslot⟩ := h.exists_of_slot hfull hj
    have hilt : i < xs.length := (List.getElem?_eq_some_iff.1 hx).1
    rw [hslot, h.ids i x hx] at hid
    simp only [sizeRange] at hid
    have hip : i + 1 = p := by omega
    exact ⟨by omega, by rw [← hij, ← hip]; rfl⟩
  · rintro ⟨⟨hp, hc'⟩, rfl⟩
    have hlt : p - 1 < xs.length := by omega
    have hx := List.getElem?_eq_getElem hlt
    rw [h.slot_eq hx (by omega), h.ids _ _ hx]
    simp only [sizeRange]
    omega

/-! ## The search for the last update -/

/-- The next slot is free, and the start is `last + 1`. -/
theorem updateStart_free {buf xs : List Message} {n p : Nat} (h : Stored buf xs n) (hp : p ≤ xs.length)
    (hfree : xs.length < n) : updateStart buf n (xs.length % n) (toLong (p + (sizeRange - 1))) = p := by
  have hn := h.lt
  unfold updateStart
  rw [Nat.mod_eq_of_lt hfree, h.slot_unused (Nat.le_refl _) hfree, if_pos (show zeroMessage.text = none from rfl)]
  exact toLong_pred (by omega)

/-- In a full buffer the two loops look for the slot of the last update. -/
theorem updateStart_full {buf xs : List Message} {n p c : Nat} (h : Stored buf xs n) (hpc : p + c = xs.length)
    (hcn : c ≤ n) (hfull : n ≤ xs.length) :
    updateStart buf n (xs.length % n) (toLong (p + (sizeRange - 1))) =
      if 0 < p ∧ c < n then ((p % n : Nat) : Int) else 0 := by
  have hn := h.lt
  have hpos := h.pos
  have hpn : p % n < n := Nat.mod_lt _ hpos
  have hin : xs.length % n < n := Nat.mod_lt _ hpos
  unfold updateStart
  have htext : (slot buf (xs.length % n)).text ≠ none := by
    obtain ⟨i, x, hx, -, -, hslot⟩ := h.exists_of_slot hfull hin
    rw [hslot]; exact h.texts x (List.mem_of_getElem? hx)
  rw [if_neg htext]
  have hfirst : ∀ j, j < n → (((slot buf j).id == toSize (toLong (p + (sizeRange - 1)))) = true ↔
      (0 < p ∧ c < n) ∧ j = (p - 1) % n) := by
    intro j hj
    obtain ⟨i, x, hx, -, -, hslot⟩ := h.exists_of_slot hfull hj
    rw [← slot_id_iff h hpc hcn hfull hj, toSize_toLong, beq_iff_eq, hslot, h.ids i x hx, Nat.mod_mod]
  have hsecond : ∀ j, j < n → ((toLong (slot buf j).id == toLong (p + (sizeRange - 1))) = true ↔
      (0 < p ∧ c < n) ∧ j = (p - 1) % n) := by
    intro j hj
    rw [← slot_id_iff h hpc hcn hfull hj, beq_iff_eq, toLong_eq_iff]
  have hmem₁ : ∀ j ∈ List.range' (xs.length % n) (n - xs.length % n), j < n := by
    intro j hj; rw [List.mem_range'_1] at hj; omega
  have hmem₂ : ∀ j ∈ List.range (xs.length % n), j < n := by
    intro j hj; rw [List.mem_range] at hj; omega
  by_cases hfound : 0 < p ∧ c < n
  · -- the last update is in the buffer: one of the two loops meets its slot
    have hstart : toLong (((p - 1) % n + 1) % n) = ((p % n : Nat) : Int) := by
      rw [Ring.succ_mod, Nat.sub_add_cancel hfound.1, toLong_of_lt (by omega)]
    have hq : (p - 1) % n < n := Nat.mod_lt _ hpos
    rw [if_pos hfound, find?_unique (q := (p - 1) % n) fun j hj => by simp [hfirst j (hmem₁ j hj), hfound],
      find?_unique (q := (p - 1) % n) fun j hj => by simp [hsecond j (hmem₂ j hj), hfound]]
    by_cases hin₁ : (p - 1) % n ∈ List.range' (xs.length % n) (n - xs.length % n)
    · rw [if_pos hin₁]; exact hstart
    · have hin₂ : (p - 1) % n ∈ List.range (xs.length % n) := by
        rw [List.mem_range'_1] at hin₁; rw [List.mem_range]; omega
      rw [if_neg hin₁, if_pos hin₂]; exact hstart
  · -- it is not, and the start stays 0
    rw [if_neg hfound, List.find?_eq_none.2 fun j hj => by rw [hfirst j (hmem₁ j hj)]; exact fun hh => hfound hh.1,
      List.find?_eq_none.2 fun j hj => by rw [hsecond j (hmem₂ j hj)]; exact fun hh => hfound hh.1]

/-- **The start is the slot of the first pending message** while the last update is still in the buffer, or the pending
messages begin at slot 0. -/
theorem updateStart_eq {buf xs : List Message} {n p c : Nat} (h : Stored buf xs n) (hpc : p + c = xs.length)
    (hcn : c ≤ n) (hlast : c < n ∨ p % n = 0) :
    updateStart buf n (xs.length % n) (toLong (p + (sizeRange - 1))) = ((p % n : Nat) : Int) := by
  by_cases hfree : xs.length < n
  · rw [updateStart_free h (by omega) hfree, Nat.mod_eq_of_lt (by omega)]
  · rw [updateStart_full h hpc hcn (Nat.le_of_not_lt hfree)]
    split
    · rfl
    · have hp0 : p % n = 0 := by
        rcases hlast with hcn' | hp0
        · have hp : p = 0 := by omega
          rw [hp, Nat.zero_mod]
        · exact hp0
      rw [hp0]
      rfl

theorem length_mod {n p c m : Nat} (hpc : p + c = m) (hpos : 0 < n) (hcn : c ≤ n) :
    (m % n = p % n + c ∧ p % n + c < n) ∨ (m % n + n = p % n + c ∧ n ≤ p % n + c) := by
  have hp := Nat.mod_lt p hpos
  have hm : m % n = (p % n + c) % n := by rw [← hpc, Nat.mod_add_mod]
  by_cases hlt : p % n + c < n
  · exact .inl ⟨by rw [hm, Nat.mod_eq_of_lt hlt], hlt⟩
  · refine .inr ⟨?_, by omega⟩
    rw [hm, Nat.mod_eq_sub_mod (by omega), Nat.mod_eq_of_lt (by omega)]
    omega

theorem toSendCount_eq {n p c m : Nat} (hn : n < 2 ^ 60) (hpos : 0 < n) (hpc : p + c = m) (hc : 0 < c) (hcn : c ≤ n) :
    toSendCount n (m % n) ((p % n : Nat) : Int) = c := by
  have hp := Nat.mod_lt p hpos
  have hm := Nat.mod_lt m hpos
  unfold toSendCount
  rw [toLong_of_lt (by omega), toSize_of_lt (by simp only [sizeRange]; omega)]
  simp only [sizeRange]
  rcases length_mod hpc hpos hcn with ⟨h, hlt⟩ | ⟨h, hle⟩
  · rw [if_pos (by omega)]; omega
  · rw [if_neg (by omega)]
    split <;> omega

/-- **The copy loops** read the slots of the pending messages in order and fill the array from its beginning. -/
theorem copies_eq {buf : List Message} {n p c m : Nat} (hn : n < 2 ^ 60) (hpos : 0 < n) (hpc : p + c = m) (hc : 0 < c)
    (hcn : c ≤ n) :
    copies buf n (m % n) ((p % n : Nat) : Int) = (List.range c).map fun i => (i, slot buf ((p + i) % n)) := by
  have hp := Nat.mod_lt p hpos
  have hm := Nat.mod_lt m hpos
  have hslot : ∀ i, i < n - p % n → slot buf (p % n + i) = slot buf ((p + i) % n) := fun i hi => by
    rw [← Nat.mod_add_mod p n i, Nat.mod_eq_of_lt (show p % n + i < n by omega)]
  unfold copies
  rw [toLong_of_lt (by omega), toSize_of_lt (by simp only [sizeRange]; omega)]
  rcases length_mod hpc hpos hcn with ⟨h, hlt⟩ | ⟨h, hle⟩
  · rw [if_pos (by omega), show m % n - p % n = c by omega]
    refine List.map_congr_left fun i hi => ?_
    rw [List.mem_range] at hi
    rw [hslot i (by omega)]
  · rw [if_neg (by omega), if_pos (by omega)]
    have hsplit : c = (n - p % n) + m % n := by omega
    conv => rhs; rw [hsplit, List.range_add, List.map_append, List.map_map]
    congr 1
    · refine List.map_congr_left fun i hi => ?_
      rw [List.mem_range] at hi
      rw [hslot i hi]
    · refine List.map_congr_left fun i hi => ?_
      rw [List.mem_range] at hi
      have hsum : p % n + (n - p % n + i) = n + i := by omega
      have hwrap : (p + (n - p % n + i)) % n = i := by
        rw [← Nat.mod_add_mod p n (n - p % n + i), hsum, Nat.add_mod_left, Nat.mod_eq_of_lt (show i < n by omega)]
      show (i + n - p % n, slot buf i) = (n - p % n + i, slot buf ((p + (n - p % n + i)) % n))
      rw [hwrap]
      congr 1
      omega

theorem foldl_set_range (f : Nat → Message) (c : Nat) : ∀ k ≤ c,
    ((List.range k).map fun i => (i, f i)).foldl (fun a w => a.set w.1 (some w.2)) (List.replicate c none) =
      (List.range k).map (fun i => some (f i)) ++ List.replicate (c - k) none
  | 0, _ => by simp
  | k + 1, hk => by
    rw [List.range_succ, List.map_append, List.foldl_append, foldl_set_range f c k (by omega), List.map_append]
    simp only [List.map_cons, List.map_nil, List.foldl_cons, List.foldl_nil]
    rw [List.set_append_right _ _ (by simp), show c - k = (c - (k + 1)) + 1 by omega, List.replicate_succ]
    simp

theorem messagesToSend_eq (f : Nat → Message) (c : Nat) :
    messagesToSend c ((List.range c).map fun i => (i, f i)) = (List.range c).map fun i => some (f i) := by
  unfold messagesToSend
  rw [foldl_set_range f c c (Nat.le_refl _), Nat.sub_self, List.replicate_zero, List.append_nil]

/-- The pending messages, read off their slots. -/
theorem slots_eq_drop {buf xs : List Message} {n p c : Nat} (h : Stored buf xs n) (hpc : p + c = xs.length)
    (hcn : c ≤ n) : ((List.range c).map fun i => some (slot buf ((p + i) % n))) = (xs.drop p).map some := by
  refine List.ext_getElem (by simp; omega) fun i hi hi' => ?_
  simp only [List.length_map, List.length_range] at hi
  have hx : xs[p + i]? = some (xs.get ⟨p + i, by omega⟩) := List.getElem?_eq_getElem _
  simp only [List.getElem_map, List.getElem_range, List.getElem_drop]
  rw [h.slot_eq hx (by omega), List.get_eq_getElem]

/-- What `send_updates` hands to `mq_send` when the messages `pending` are sent to `clientCount` clients. -/
def broadcast (clientCount : Nat) (pending : List Message) : List (Nat × CString) :=
  (List.range clientCount).flatMap fun i => pending.map fun x => (i, x.text.getD [])

/-- **From the slot of message `p` on**, the `c` slots before the write position are sent in a round. -/
theorem sendUpdates_slots {buf : List Message} {n p c m : Nat} {last : Int} (hn : n < 2 ^ 60) (hpos : 0 < n)
    (hpc : p + c = m) (hc : 0 < c) (hcn : c ≤ n) (hstart : updateStart buf n (m % n) last = (p % n : Nat))
    (clientCount : Nat) :
    sendUpdates clientCount last buf n (m % n) =
      ((List.range clientCount).mapM fun i =>
        ((List.range c).map fun j => some (slot buf ((p + j) % n))).mapM fun (m : Option Message) =>
          (m.bind Message.text).map fun text => (i, text)).map fun sends =>
            (toLong (slot buf ((m - 1) % n)).id, sends.flatten) := by
  have hlast : ((List.range c).map fun j => some (slot buf ((p + j) % n))).getLast? =
      some (some (slot buf ((m - 1) % n))) := by
    obtain ⟨d, rfl⟩ := Nat.exists_eq_add_one.2 hc
    rw [List.range_succ, List.map_append, List.map_singleton, List.getLast?_concat, ← hpc]
    rfl
  unfold sendUpdates
  simp only [hstart, toSendCount_eq hn hpos hpc hc hcn, copies_eq hn hpos hpc hc hcn, messagesToSend_eq, hlast,
    Option.join_some, Option.bind_some]

/-- From the slot of message `p` on, everything is sent: each message once to every client and in their order. -/
theorem sendUpdates_of_start {buf xs : List Message} {n p c : Nat} {last : Int} (h : Stored buf xs n)
    (hpc : p + c = xs.length) (hc : 0 < c) (hcn : c ≤ n)
    (hstart : updateStart buf n (xs.length % n) last = (p % n : Nat)) (clientCount : Nat) :
    sendUpdates clientCount last buf n (xs.length % n) =
      some (toLong (xs.length - 1), broadcast clientCount (xs.drop p)) := by
  have hlt : xs.length - 1 < xs.length := by omega
  have hlast := List.getElem?_eq_getElem hlt
  have hlong : toLong (slot buf ((xs.length - 1) % n)).id = toLong (xs.length - 1) := by
    rw [h.slot_eq hlast (by omega), h.ids _ _ hlast, toLong_eq_iff, Nat.mod_mod]
  have hsends : ∀ i : Nat, ((xs.drop p).map some).mapM (fun m => (m.bind Message.text).map fun text => (i, text)) =
      some ((xs.drop p).map fun x => (i, x.text.getD [])) := by
    intro i
    rw [mapM_eq_some_map (g := fun m => (i, (m.bind Message.text).getD [])) fun m hm => ?_, List.map_map]
    · rfl
    · obtain ⟨x, hx, rfl⟩ := List.mem_map.1 hm
      obtain ⟨text, ht⟩ := Option.ne_none_iff_exists'.1 (h.texts x (List.mem_of_mem_drop hx))
      simp [ht]
  rw [sendUpdates_slots h.lt h.pos hpc hc hcn hstart, slots_eq_drop h hpc hcn, mapM_eq_some_map fun i _ => hsends i,
    hlong]
  rfl

/-- **`send_updates` sends the pending messages**, each once to every client and in their order. -/
theorem sendUpdates_eq {buf xs : List Message} {n p c : Nat} (h : Stored buf xs n) (hpc : p + c = xs.length)
    (hc : 0 < c) (hcn : c ≤ n) (hlast : c < n ∨ p % n = 0) (clientCount : Nat) :
    sendUpdates clientCount (toLong (p + (sizeRange - 1))) buf n (xs.length % n) =
      some (toLong (xs.length - 1), broadcast clientCount (xs.drop p)) :=
  sendUpdates_of_start h hpc hc hcn (updateStart_eq h hpc hcn hlast) clientCount

/-! ## The buffer of the server -/

/-- The server has stored `xs` and sent all of it. -/
structure Buffered (s : Server) (xs : List Message) : Prop where
  stored : Stored s.messageBuf xs s.messageBufSize
  iter : s.messageBufIter = xs.length % s.messageBufSize
  count : s.messageCount = xs.length % sizeRange
  last : s.lastUpdateMessageId = toLong (xs.length + (sizeRange - 1))

theorem buffered_init {n : Nat} (hn : 1 ≤ n) {s₀ : Server} (h₀ : chatServer n = some s₀) : Buffered s₀ [] := by
  unfold chatServer at h₀
  obtain ⟨buf, hbuf, rfl⟩ := Option.map_eq_some_iff.1 h₀
  refine ⟨stored_nil hn hbuf, (Nat.zero_mod n).symm, rfl, ?_⟩
  show (-1 : Int) = toLong (0 + (sizeRange - 1))
  decide

/-- The buffer `send_updates` is called with. -/
theorem Buffered.added {s : Server} {xs : List Message} (h : Buffered s xs) (text : CString) (client : ClientRec) :
    Stored (addMessage s.messageBufIter s.messageBufSize s.messageBuf text client s.messageCount).1
      (xs ++ [{ text := some text, clientId := client.id, id := s.messageCount }]) s.messageBufSize ∧
    (addMessage s.messageBufIter s.messageBufSize s.messageBuf text client s.messageCount).2 =
      (xs.length + 1) % s.messageBufSize := by
  rw [h.iter]
  exact ⟨h.stored.add text client h.count, Ring.succ_mod _ _⟩

/-- The new message alone is pending, so the search finds its slot. -/
theorem updateStart_added {buf xs : List Message} {n : Nat} {x : Message} (h : Stored buf (xs ++ [x]) n) :
    updateStart buf n ((xs.length + 1) % n) (toLong (xs.length + (sizeRange - 1))) = ((xs.length % n : Nat) : Int) := by
  have hpos := h.pos
  have hlen : (xs ++ [x]).length = xs.length + 1 := by simp
  rw [← hlen]
  refine updateStart_eq h (p := xs.length) (c := 1) hlen.symm hpos ?_
  by_cases h1 : n = 1
  · exact .inr (by rw [h1, Nat.mod_one])
  · exact .inl (by omega)

theorem broadcast_singleton (clientCount : Nat) (x : Message) :
    broadcast clientCount [x] = (List.range clientCount).map fun i => (i, x.text.getD []) := by
  unfold broadcast
  rw [← List.flatMap_singleton' ((List.range clientCount).map fun i => (i, x.text.getD [])), List.flatMap_map]
  rfl

/-- **A text is stored and sent at once** to every client, and nothing else is. -/
theorem Buffered.text {s : Server} {xs : List Message} (h : Buffered s xs) {m : Received}
    (hsender : (senderOf s m).isSome = true) :
    ∃ t x, handleText s m = some t ∧ t.sent = s.sent ++ ((List.range s.clients.length).map fun i => (i, m.buf)) ∧
      t.clients = s.clients ∧ t.running = s.running ∧ Buffered t (xs ++ [x]) := by
  obtain ⟨client, hc⟩ := Option.isSome_iff_exists.1 hsender
  obtain ⟨hstored, hiter⟩ := h.added m.buf client
  let x : Message := { text := some m.buf, clientId := client.id, id := s.messageCount }
  have hlen : (xs ++ [x]).length = xs.length + 1 := by simp
  have hupd := sendUpdates_of_start hstored hlen.symm Nat.one_pos h.stored.pos
    (hlen ▸ updateStart_added hstored) s.clients.length
  rw [← h.last, hlen, List.drop_left, broadcast_singleton, ← hiter] at hupd
  unfold handleText
  rw [hc, Option.bind_some]
  simp only
  rw [hupd]
  refine ⟨_, x, rfl, rfl, rfl, rfl, hstored, ?_, ?_, ?_⟩
  · exact hiter.trans (by rw [hlen])
  · rw [hlen, h.count]
    simp only [sizeRange]; omega
  · rw [hlen, toLong_eq_iff]
    simp only [sizeRange]; omega

end MsgQueue
end Eltex
