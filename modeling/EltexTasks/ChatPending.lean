import EltexTasks.ChatUpdates
/-!
# ChatPending — `send_updates` for any number of pending messages

The server of the chat calls `send_updates` with one message pending.  Here any number of texts has been stored and any
number of the last ones is pending, none of them overwritten.  The search goes wrong at both ends of that range: with
nothing pending the start meets the write position and the whole buffer counts as pending, and with the buffer full of
pending messages the last update is no longer in it and the start stays 0 (`delivers_iff`).
-/
namespace Eltex
namespace MsgQueue

/-- The value of a `long` that is set to `l`. -/
def long (l : Int) : Int := Int.bmod l sizeRange

/-- One text is stored: the buffer, the write position and the number of messages so far. -/
def storeText (n : Nat) (s : List Message × Nat × Nat) (t : CString × ClientRec) : List Message × Nat × Nat :=
  let (buf, iter) := addMessage s.2.1 n s.1 t.1 t.2 s.2.2
  (buf, iter, (s.2.2 + 1) % sizeRange)

def storeTexts (n : Nat) (zeroed : List Message) (ts : List (CString × ClientRec)) : List Message × Nat × Nat :=
  ts.foldl (storeText n) (zeroed, 0, 0)

/-- The texts among `sends` that go to client `i`. -/
def deliveredTo (i : Nat) (sends : List (Nat × CString)) : List CString :=
  (sends.filter (fun t => t.1 == i)).map Prod.snd

/-- **Each client is sent the texts `pending`**, in this order, and `lastId` is returned. -/
def Delivers (clientCount : Nat) (lastId : Int) (pending : List CString)
    (result : Option (Int × List (Nat × CString))) : Prop :=
  ∃ sends, result = some (lastId, sends) ∧ ∀ i, deliveredTo i sends = if i < clientCount then pending else []

theorem deliveredTo_broadcast (xs : List Message) (i : Nat) : ∀ clientCount : Nat,
    deliveredTo i (broadcast clientCount xs) = if i < clientCount then xs.map (fun x => x.text.getD []) else []
  | 0 => rfl
  | k + 1 => by
    have hk : deliveredTo i (xs.map fun x => (k, x.text.getD [])) =
        if k = i then xs.map (fun x => x.text.getD []) else [] := by
      unfold deliveredTo
      rw [List.filter_map, List.map_map]
      by_cases hki : k = i
      · simp [hki, Function.comp_def]
      · simp [hki, Function.comp_def]
    have hsplit : deliveredTo i (broadcast (k + 1) xs) =
        deliveredTo i (broadcast k xs) ++ deliveredTo i (xs.map fun x => (k, x.text.getD [])) := by
      unfold deliveredTo broadcast
      rw [List.range_succ, List.flatMap_append, List.filter_append, List.map_append, List.flatMap_singleton]
    rw [hsplit, deliveredTo_broadcast xs i k, hk]
    rcases Nat.lt_trichotomy i k with h | rfl | h
    · rw [if_pos h, if_neg (by omega), if_pos (by omega), List.append_nil]
    · simp
    · rw [if_neg (by omega), if_neg (by omega), if_neg (by omega), List.append_nil]

/-- The messages sent are the pending ones when there is a client and their numbers agree. -/
theorem delivers_broadcast_iff {clientCount : Nat} {r lastId : Int} {xs : List Message} {pending : List CString} :
    Delivers clientCount lastId pending (some (r, broadcast clientCount xs)) ↔
      r = lastId ∧ (0 < clientCount → xs.map (fun x => x.text.getD []) = pending) := by
  constructor
  · rintro ⟨sends, hsome, hall⟩
    obtain ⟨rfl, rfl⟩ := Prod.mk.inj (Option.some.inj hsome)
    refine ⟨rfl, fun hpos => ?_⟩
    have := hall 0
    rwa [deliveredTo_broadcast, if_pos hpos, if_pos hpos] at this
  · rintro ⟨rfl, heq⟩
    refine ⟨_, rfl, fun i => ?_⟩
    rw [deliveredTo_broadcast]
    by_cases hi : i < clientCount
    · rw [if_pos hi, if_pos hi, heq (by omega)]
    · rw [if_neg hi, if_neg hi]

/-- Too many messages, or too few, are right only where there is no client. -/
theorem delivers_drop_iff {clientCount p q : Nat} {r : Int} {xs : List Message}
    (hpq : xs.length - q ≠ xs.length - p) :
    Delivers clientCount r ((xs.drop p).map fun x => x.text.getD []) (some (r, broadcast clientCount (xs.drop q))) ↔
      clientCount = 0 := by
  rw [delivers_broadcast_iff]
  constructor
  · rintro ⟨-, hall⟩
    by_contra hpos
    have := congrArg List.length (hall (by omega))
    simp only [List.length_map, List.length_drop] at this
    exact hpq this
  · rintro rfl
    exact ⟨rfl, nofun⟩

theorem stored_storeTexts {n : Nat} (hn : 1 ≤ n) {zeroed : List Message} (hz : callocMessages n = some zeroed)
    (ts : List (CString × ClientRec)) :
    ∃ xs, Stored (storeTexts n zeroed ts).1 xs n ∧ (storeTexts n zeroed ts).2.1 = xs.length % n ∧
      (storeTexts n zeroed ts).2.2 = xs.length % sizeRange ∧ xs.map (fun x => x.text.getD []) = ts.map Prod.fst := by
  induction ts using List.reverseRecOn with
  | nil => exact ⟨[], stored_nil hn hz, (Nat.zero_mod n).symm, rfl, rfl⟩
  | append_singleton ts t ih =>
    obtain ⟨xs, hstored, hiter, hcount, htexts⟩ := ih
    have hstep : storeTexts n zeroed (ts ++ [t]) = storeText n (storeTexts n zeroed ts) t := by
      simp [storeTexts]
    let x : Message := { text := some t.1, clientId := t.2.id, id := (storeTexts n zeroed ts).2.2 }
    rw [hstep]
    refine ⟨xs ++ [x], ?_, ?_, ?_, ?_⟩
    · show Stored (addMessage (storeTexts n zeroed ts).2.1 n (storeTexts n zeroed ts).1 t.1 t.2
        (storeTexts n zeroed ts).2.2).1 _ n
      rw [hiter]
      exact hstored.add t.1 t.2 hcount
    · show ((storeTexts n zeroed ts).2.1 + 1) % n = _
      rw [hiter, Ring.succ_mod, List.length_append, List.length_singleton]
    · show ((storeTexts n zeroed ts).2.2 + 1) % sizeRange = _
      rw [hcount, Ring.succ_mod, List.length_append, List.length_singleton]
    · simp [htexts, x]

/-! ## The two ends of the range -/

theorem long_pred (p : Nat) : long ((p : Int) - 1) = toLong (p + (sizeRange - 1)) := by
  unfold long toLong
  have h : ((p + (sizeRange - 1) : Nat) : Int) = (p : Int) - 1 + sizeRange := by simp only [sizeRange]; omega
  rw [h, Int.add_bmod_right]

theorem toLong_length_pred {m : Nat} (hm : 0 < m) : toLong (m - 1) = long ((m : Int) - 1) := by
  unfold long toLong
  rw [Nat.cast_sub hm, Nat.cast_one]

/-- **Nothing is pending in a full buffer**: the start is the write position, and all of the buffer is sent again. -/
theorem sendUpdates_none_pending {buf xs : List Message} {n : Nat} (h : Stored buf xs n) (hfull : n ≤ xs.length)
    (clientCount : Nat) :
    sendUpdates clientCount (toLong (xs.length + (sizeRange - 1))) buf n (xs.length % n) =
      some (toLong (xs.length - 1), broadcast clientCount (xs.drop (xs.length - n))) := by
  have hpos := h.pos
  refine sendUpdates_of_start h (Nat.sub_add_cancel hfull) hpos (Nat.le_refl n) ?_ clientCount
  rw [updateStart_full h (Nat.add_zero _) (Nat.zero_le n) hfull, if_pos (by omega), ← Nat.mod_eq_sub_mod hfull]

/-- **The buffer is full of pending messages**, the first of them not at slot 0: the start is slot 0, and the messages
behind it are left out. -/
theorem sendUpdates_all_pending {buf xs : List Message} {n p : Nat} (h : Stored buf xs n) (hpc : p + n = xs.length)
    (hp0 : p % n ≠ 0) (clientCount : Nat) :
    sendUpdates clientCount (toLong (p + (sizeRange - 1))) buf n (xs.length % n) =
      some (toLong (xs.length - 1), broadcast clientCount (xs.drop (xs.length - p % n))) := by
  have hpn := Nat.mod_lt p h.pos
  have hmod : xs.length % n = p % n := by rw [← hpc, Nat.add_mod_right]
  refine sendUpdates_of_start (c := p % n) h (by omega) (by omega) (by omega) ?_ clientCount
  rw [updateStart_full h hpc (Nat.le_refl n) (by omega), if_neg (by omega), ← hmod, Nat.sub_mod_eq_zero_of_mod_eq (by
    rw [Nat.mod_mod])]
  rfl

/-- **Nothing is pending and there is a free slot**: the round begins there, and its NULL text is read when there is
a client to send it to. -/
theorem sendUpdates_free {buf xs : List Message} {n : Nat} (h : Stored buf xs n) (hfree : xs.length < n)
    (clientCount : Nat) :
    sendUpdates clientCount (toLong (xs.length + (sizeRange - 1))) buf n (xs.length % n) =
      if clientCount = 0 then some (toLong (slot buf ((xs.length + n - 1) % n)).id, []) else none := by
  have hstart : updateStart buf n ((xs.length + n) % n) (toLong (xs.length + (sizeRange - 1))) =
      ((xs.length % n : Nat) : Int) := by
    rw [Nat.add_mod_right, updateStart_free h (Nat.le_refl _) hfree, Nat.mod_eq_of_lt hfree]
  have hround := sendUpdates_slots h.lt h.pos rfl h.pos (Nat.le_refl n) hstart clientCount
  rw [Nat.add_mod_right] at hround
  rw [hround]
  cases clientCount with
  | zero => rfl
  | succ k =>
    obtain ⟨d, hd⟩ := Nat.exists_eq_add_one.2 h.pos
    have hnull : slot buf ((xs.length + 0) % n) = zeroMessage := by
      rw [Nat.add_zero, Nat.mod_eq_of_lt hfree]
      exact h.slot_unused (Nat.le_refl _) hfree
    rw [if_neg (by omega), List.range_succ_eq_map, List.mapM_cons, hd, List.range_succ_eq_map, List.map_cons,
      List.mapM_cons, ← hd, hnull]
    rfl

/-- With messages pending, all goes well where one of the buffer is not pending or the first is at slot 0. -/
theorem delivers_pending_iff {buf xs : List Message} {n p c : Nat} (h : Stored buf xs n) (hpc : p + c = xs.length)
    (hc : 0 < c) (hcn : c ≤ n) (clientCount : Nat) :
    Delivers clientCount (toLong (xs.length - 1)) ((xs.drop p).map fun x => x.text.getD [])
        (sendUpdates clientCount (toLong (p + (sizeRange - 1))) buf n (xs.length % n)) ↔
      (c < n ∨ p % n = 0) ∨ clientCount = 0 := by
  by_cases hfits : c < n ∨ p % n = 0
  · rw [sendUpdates_eq h hpc hc hcn hfits, delivers_broadcast_iff]
    exact iff_of_true ⟨rfl, fun _ => rfl⟩ (.inl hfits)
  · obtain rfl : c = n := by omega
    have hpn := Nat.mod_lt p h.pos
    rw [sendUpdates_all_pending h hpc (fun h0 => hfits (.inr h0)), delivers_drop_iff (by omega), or_iff_right hfits]

/-- With nothing pending all goes well only where there is no client, and a number to return. -/
theorem delivers_none_pending_iff {buf xs : List Message} {n : Nat} (h : Stored buf xs n) (clientCount : Nat) :
    Delivers clientCount (long ((xs.length : Int) - 1)) ((xs.drop xs.length).map fun x => x.text.getD [])
        (sendUpdates clientCount (toLong (xs.length + (sizeRange - 1))) buf n (xs.length % n)) ↔
      clientCount = 0 ∧ 0 < xs.length := by
  have hpos := h.pos
  by_cases hfull : n ≤ xs.length
  · rw [← toLong_length_pred (by omega), sendUpdates_none_pending h hfull, delivers_drop_iff (by omega)]
    omega
  · rw [sendUpdates_free h (by omega)]
    cases clientCount with
    | succ k => simp [Delivers]
    | zero =>
      rw [if_pos rfl, List.drop_length]
      have hfree : ∀ r : Int, some (r, []) = some (r, broadcast 0 []) := fun _ => rfl
      rw [hfree, delivers_broadcast_iff]
      by_cases hempty : xs.length = 0
      · -- the last slot of the zeroed buffer
        have hzero : slot buf ((xs.length + n - 1) % n) = zeroMessage :=
          h.slot_unused (by omega) (Nat.mod_lt _ hpos)
        have hid : toLong zeroMessage.id ≠ long (((0 : Nat) : Int) - 1) := by decide
        rw [hzero, hempty]
        exact iff_of_false (fun hd => hid hd.1) (by omega)
      · have hx := List.getElem?_eq_getElem (show xs.length - 1 < xs.length by omega)
        have hslot : slot buf ((xs.length + n - 1) % n) = xs[xs.length - 1] := by
          rw [show xs.length + n - 1 = xs.length - 1 + n by omega, Nat.add_mod_right]
          exact h.slot_eq hx (by omega)
        have hid : toLong xs[xs.length - 1].id = long ((xs.length : Int) - 1) := by
          rw [h.ids _ _ hx, ← toLong_length_pred (by omega), toLong_eq_iff, Nat.mod_mod]
        rw [hslot, hid]
        exact iff_of_true ⟨rfl, nofun⟩ ⟨rfl, by omega⟩

/-- **`send_updates` sends exactly the pending messages** `l + 1, …, m - 1` if and only if there is one, and the buffer
is not full of them unless the first is at slot 0; without clients, if and only if a message has been stored. -/
theorem delivers_iff (n : Nat) (hn : 1 ≤ n) (zeroed : List Message) (hz : callocMessages n = some zeroed)
    (ts : List (CString × ClientRec)) (clientCount : Nat) (l : Int) (hl : -1 ≤ l) (hlast : l ≤ ts.length - 1)
    (hkept : ts.length - 1 - l ≤ n) :
    Delivers clientCount (long (ts.length - 1)) ((ts.map Prod.fst).drop (l + 1).toNat)
        (sendUpdates clientCount (long l) (storeTexts n zeroed ts).1 n (storeTexts n zeroed ts).2.1) ↔
      (l < ts.length - 1 ∧ (ts.length - 1 - l < n ∨ (l + 1) % n = 0)) ∨ (clientCount = 0 ∧ 0 < ts.length) := by
  obtain ⟨xs, h, hiter, -, htexts⟩ := stored_storeTexts hn hz ts
  have hlen : ts.length = xs.length := by simpa using (congrArg List.length htexts).symm
  -- the first pending message, and their number
  obtain ⟨p, rfl⟩ : ∃ p : Nat, l = (p : Int) - 1 := ⟨(l + 1).toNat, by omega⟩
  obtain ⟨c, hpc⟩ : ∃ c, p + c = xs.length := ⟨xs.length - p, by omega⟩
  have hcn : c ≤ n := by omega
  have hpend : ((ts.map Prod.fst).drop ((p : Int) - 1 + 1).toNat) = (xs.drop p).map (fun x => x.text.getD []) := by
    rw [Int.sub_add_cancel, Int.toNat_natCast, ← htexts, List.map_drop]
  have hmod : ((p : Int) - 1 + 1) % n = 0 ↔ p % n = 0 := by
    rw [Int.sub_add_cancel]
    exact_mod_cast Iff.rfl
  rw [hiter, hpend, hlen, hmod, long_pred p]
  by_cases hc : 0 < c
  · rw [← toLong_length_pred (show 0 < xs.length by omega), delivers_pending_iff h hpc hc hcn]
    omega
  · obtain rfl : p = xs.length := by omega
    rw [delivers_none_pending_iff h]
    omega

/-- The texts a, b and c of one client. -/
def threeTexts : List (CString × ClientRec) := ['a', 'b', 'c'].map fun c => (str [c], ⟨0, str ['u'], str ['/', 'u']⟩)

theorem delivers_iff_threeTexts :
    Delivers 1 (long ((threeTexts.length : Int) - 1)) ((threeTexts.map Prod.fst).drop ((1 : Int) + 1).toNat)
      (sendUpdates 1 (long 1) (storeTexts 2 (List.replicate 2 zeroMessage) threeTexts).1 2
        (storeTexts 2 (List.replicate 2 zeroMessage) threeTexts).2.1) :=
  (delivers_iff 2 (by decide) _ (by decide) threeTexts 1 1 (by decide) (by decide) (by decide)).2 (by decide)

/-- **The last message is sent again**: the three texts are stored in a buffer of two, all of them have been sent, and
the client gets b and c once more. -/
theorem nothing_pending_resent :
    ¬ Delivers 1 (long ((threeTexts.length : Int) - 1)) ((threeTexts.map Prod.fst).drop ((2 : Int) + 1).toNat)
      (sendUpdates 1 (long 2) (storeTexts 2 (List.replicate 2 zeroMessage) threeTexts).1 2
        (storeTexts 2 (List.replicate 2 zeroMessage) threeTexts).2.1) := by
  have hsent : sendUpdates 1 (long 2) (storeTexts 2 (List.replicate 2 zeroMessage) threeTexts).1 2
      (storeTexts 2 (List.replicate 2 zeroMessage) threeTexts).2.1 =
      some (2, [(0, str ['b']), (0, str ['c'])]) := by
    decide
  rw [hsent]
  rintro ⟨sends, hsome, hall⟩
  obtain ⟨-, rfl⟩ := Prod.mk.inj (Option.some.inj hsome)
  exact absurd (hall 0) (by decide)

end MsgQueue
end Eltex
