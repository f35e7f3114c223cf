import EltexTasks.CString
import EltexTasks.Run
/-!
# RawUdp — the replies to the raw socket client

raw_socket/source/raw_socket_clients.c: the receiving loops of `raw_udp_client`.  A datagram is accepted by its ports
alone, and `received_full` keeps the bytes of earlier ones past its end, so the value of one without a whole
`comm_package_t` is what was there before (`hasPackage`).
-/
namespace Eltex
namespace RawUdp

def SELSERV_UDP_PORT : Nat := 38396

def RAW_SOCKET_UDP_PORT : Nat := 38399

/-- An IPv4 datagram with a UDP header; `options` are the bytes of the IP header after the first. -/
structure Datagram where
  ihl : Nat
  ihl_ge : 5 ≤ ihl
  ihl_le : ihl ≤ 15
  options : List Byte
  length_options : options.length + 1 = 4 * ihl
  sourcePort : Nat
  sourcePort_lt : sourcePort < 2 ^ 16
  destPort : Nat
  destPort_lt : destPort < 2 ^ 16
  lengthAndChecksum : Byte × Byte × Byte × Byte
  payload : List Byte
deriving DecidableEq, Repr

/-- `htons` of a port, as it stands in memory. -/
def portBytes (port : Nat) : List Byte := [UInt8.ofNat (port / 256), UInt8.ofNat (port % 256)]

/-- The header of the datagram. -/
def Datagram.udpHeader (d : Datagram) : List Byte :=
  portBytes d.sourcePort ++ portBytes d.destPort ++
    [d.lengthAndChecksum.1, d.lengthAndChecksum.2.1, d.lengthAndChecksum.2.2.1, d.lengthAndChecksum.2.2.2]

def Datagram.bytes (d : Datagram) : List Byte :=
  UInt8.ofNat (4 * 16 + d.ihl) :: d.options ++ d.udpHeader ++ d.payload

/-- An `int` in memory, its least significant byte first. -/
def int32 (bytes : List Byte) : Int :=
  (BitVec.ofNat 32 (bytes.foldr (fun b n => b.toNat + 256 * n) 0)).toInt

/-- `raw_message_t`, with its ports after `ntohs`. -/
structure RawMessage where
  sourcePort : Nat
  destPort : Nat
  info : Int

/-- `received_udp` and its fields; `none` outside `received_full`. -/
def readMessage (receivedFull : List Byte) (ihl : Nat) : Option RawMessage :=
  match (receivedFull.drop ihl).take 12 with
  | [s1, s0, d1, d0, _, _, _, _, i0, i1, i2, i3] =>
    some { sourcePort := s1.toNat * 256 + s0.toNat, destPort := d1.toNat * 256 + d0.toNat
           info := int32 [i0, i1, i2, i3] }
  | _ => none

/-- The datagrams accepted, each with the value printed for it, and whether another is waited for. -/
structure Replies where
  accepted : List (Datagram × Int)
  waiting : Bool
deriving DecidableEq, Repr

structure Client where
  receivedFull : List Byte
  replies : Replies
deriving DecidableEq, Repr

/-- `recvfrom` into `received_full`: the bytes past the end of the datagram stay. -/
def recvfrom (receivedFull bytes : List Byte) : List Byte :=
  bytes.take receivedFull.length ++ receivedFull.drop bytes.length

/-- The next datagram; after a reply of 0 none is received. -/
def step (c : Client) (d : Datagram) : Option Client :=
  if c.replies.waiting then
    let receivedFull := recvfrom c.receivedFull d.bytes
    receivedFull[0]?.bind fun versionAndIhl =>
      (readMessage receivedFull ((versionAndIhl &&& 0x0f).toNat * 4)).map fun receivedUdp : RawMessage =>
        if receivedUdp.sourcePort = SELSERV_UDP_PORT ∨ receivedUdp.destPort = RAW_SOCKET_UDP_PORT then
          { receivedFull := receivedFull
            replies :=
              { accepted := c.replies.accepted ++ [(d, receivedUdp.info)], waiting := receivedUdp.info ≠ 0 } }
        else { c with receivedFull := receivedFull }
  else some c

/-- The client before the first datagram. -/
def start : Client where
  receivedFull := List.replicate (60 + 12) 0
  replies := { accepted := [], waiting := true }

/-! ## What the client is for -/

/-- The ports of a reply. -/
def Datagram.isReply (d : Datagram) : Prop := d.sourcePort = SELSERV_UDP_PORT ∨ d.destPort = RAW_SOCKET_UDP_PORT

instance (d : Datagram) : Decidable d.isReply := inferInstanceAs (Decidable (_ ∨ _))

/-- A datagram with the ports of a reply and a whole `comm_package_t` is accepted, with the value of its first four
bytes. -/
def Replies.next (r : Replies) (d : Datagram) : Replies :=
  if r.waiting ∧ d.isReply ∧ 4 ≤ d.payload.length then
    { accepted := r.accepted ++ [(d, int32 (d.payload.take 4))], waiting := int32 (d.payload.take 4) ≠ 0 }
  else r

/-- The client beside the replies that it should have accepted. -/
def bothStep : Client × Replies → Datagram → Option (Client × Replies) := Run.observed step fun _ d r => r.next d

def Agrees (p : Client × Replies) : Prop := p.1.replies = p.2

instance (p : Client × Replies) : Decidable (Agrees p) := inferInstanceAs (Decidable (_ = _))

/-- No datagram with the ports of a reply is too short while one is waited for. -/
def hasPackage (c : Client) (d : Datagram) : Prop := c.replies.waiting → d.isReply → 4 ≤ d.payload.length

/-! ## One datagram -/

variable {d : Datagram} {c : Client}

theorem toNat_portBytes {port : Nat} (h : port < 2 ^ 16) :
    (UInt8.ofNat (port / 256)).toNat * 256 + (UInt8.ofNat (port % 256)).toNat = port := by
  rw [UInt8.toNat_ofNat', UInt8.toNat_ofNat']
  omega

theorem length_recvfrom (receivedFull bytes : List Byte) : (recvfrom receivedFull bytes).length = receivedFull.length := by
  rw [recvfrom, List.length_append, List.length_take, List.length_drop]
  omega

/-- The length of the IP header is read from its first byte. -/
theorem ihl_of_bytes (d : Datagram) : (UInt8.ofNat (4 * 16 + d.ihl) &&& 0x0f).toNat * 4 = 4 * d.ihl := by
  have hle := d.ihl_le
  rw [UInt8.toNat_and, UInt8.toNat_ofNat', show (0x0f : UInt8).toNat = 2 ^ 4 - 1 from rfl, Nat.and_two_pow_sub_one_eq_mod]
  omega

theorem length_udpHeader (d : Datagram) : d.udpHeader.length = 8 := rfl

/-- The bytes from the UDP header on: the header, the beginning of the payload and, where it is short, old bytes. -/
theorem drop_recvfrom (d : Datagram) {receivedFull : List Byte} (hlen : receivedFull.length = 72) :
    ∃ package, ((recvfrom receivedFull d.bytes).drop (4 * d.ihl)).take 12 = d.udpHeader ++ package ∧
      package.length = 4 ∧ (4 ≤ d.payload.length → package = d.payload.take 4) := by
  have hle := d.ihl_le
  have hip : (UInt8.ofNat (4 * 16 + d.ihl) :: d.options).length = 4 * d.ihl := d.length_options
  have hheader : ((UInt8.ofNat (4 * 16 + d.ihl) :: d.options) ++ d.udpHeader).length = 4 * d.ihl + 8 := by
    rw [List.length_append, hip, length_udpHeader]
  obtain ⟨m, hm⟩ : ∃ m, 72 = 4 * d.ihl + 8 + (m + 4) := ⟨60 - 4 * d.ihl, by omega⟩
  -- the two headers are copied whole, then what fits of the payload
  have hcopied : d.bytes.take 72 =
      (UInt8.ofNat (4 * 16 + d.ihl) :: d.options) ++ d.udpHeader ++ d.payload.take (m + 4) := by
    rw [hm, ← hheader]
    exact List.take_length_add_append _
  have hdrop : (recvfrom receivedFull d.bytes).drop (4 * d.ihl) =
      d.udpHeader ++ (d.payload.take (m + 4) ++ receivedFull.drop d.bytes.length) := by
    rw [recvfrom, hlen, hcopied, List.append_assoc, List.append_assoc, List.drop_left' hip]
  have hrest : 4 ≤ (d.payload.take (m + 4) ++ receivedFull.drop d.bytes.length).length := by
    have htotal := congrArg List.length hdrop
    rw [List.length_drop, length_recvfrom, List.length_append, length_udpHeader, hlen] at htotal
    omega
  refine ⟨(d.payload.take (m + 4) ++ receivedFull.drop d.bytes.length).take 4, ?_, ?_, fun hlong => ?_⟩
  · rw [hdrop, show 12 = d.udpHeader.length + 4 from rfl]
    exact List.take_length_add_append _
  · rw [List.length_take]
    omega
  · have hlong' : 4 ≤ (d.payload.take (m + 4)).length := by
      rw [List.length_take]
      omega
    rw [List.take_append_of_le_length hlong', List.take_take, Nat.min_eq_left (by omega)]

/-- What the client reads of a datagram: its ports, and its value where it has one. -/
theorem readMessage_eq (d : Datagram) {receivedFull : List Byte} (hlen : receivedFull.length = 72) :
    ∃ info, readMessage (recvfrom receivedFull d.bytes) (4 * d.ihl) = some ⟨d.sourcePort, d.destPort, info⟩ ∧
      (4 ≤ d.payload.length → info = int32 (d.payload.take 4)) := by
  obtain ⟨package, hbytes, hfour, hvalue⟩ := drop_recvfrom d hlen
  obtain ⟨i0, i1, i2, i3, rfl⟩ : ∃ i0 i1 i2 i3, package = [i0, i1, i2, i3] := by
    match package, hfour with
    | [i0, i1, i2, i3], _ => exact ⟨i0, i1, i2, i3, rfl⟩
  refine ⟨int32 [i0, i1, i2, i3], ?_, fun hlong => by rw [hvalue hlong]⟩
  rw [readMessage, hbytes]
  simp only [Datagram.udpHeader, portBytes, List.cons_append, List.nil_append]
  rw [toNat_portBytes d.sourcePort_lt, toNat_portBytes d.destPort_lt]

theorem getElem?_recvfrom (d : Datagram) {receivedFull : List Byte} (hlen : receivedFull.length = 72) :
    (recvfrom receivedFull d.bytes)[0]? = some (UInt8.ofNat (4 * 16 + d.ihl)) := by
  rw [recvfrom, hlen]
  rfl

/-- **The client reads inside `received_full`** and accepts a datagram by its ports. -/
theorem step_eq (d : Datagram) (hlen : c.receivedFull.length = 72) (hwaiting : c.replies.waiting = true) :
    ∃ info, step c d = some
        { receivedFull := recvfrom c.receivedFull d.bytes
          replies :=
            if d.isReply then { accepted := c.replies.accepted ++ [(d, info)], waiting := decide (info ≠ 0) }
            else c.replies } ∧
      (4 ≤ d.payload.length → info = int32 (d.payload.take 4)) := by
  obtain ⟨info, hread, hvalue⟩ := readMessage_eq d hlen
  refine ⟨info, ?_, hvalue⟩
  rw [step, if_pos hwaiting]
  simp only [getElem?_recvfrom d hlen, Option.bind_some, ihl_of_bytes, hread, Option.map_some]
  by_cases hreply : d.isReply
  · rw [if_pos hreply, if_pos (show d.sourcePort = _ ∨ d.destPort = _ from hreply)]
  · rw [if_neg hreply, if_neg (show ¬ (d.sourcePort = _ ∨ d.destPort = _) from hreply)]

theorem step_of_not_waiting (d : Datagram) (hwaiting : c.replies.waiting = false) : step c d = some c := by
  rw [step, if_neg (by simp [hwaiting])]

theorem step_defined (d : Datagram) (hlen : c.receivedFull.length = 72) :
    ∃ c', step c d = some c' ∧ c'.receivedFull.length = 72 := by
  cases hwaiting : c.replies.waiting with
  | false => exact ⟨c, step_of_not_waiting d hwaiting, hlen⟩
  | true =>
    obtain ⟨info, hstep, -⟩ := step_eq d hlen hwaiting
    exact ⟨_, hstep, (length_recvfrom _ _).trans hlen⟩

/-! ## Any sequence of datagrams -/

variable {p q : Client × Replies}

/-- The client has accepted what it should, and its buffer has its length. -/
structure Inv (p : Client × Replies) : Prop where
  length : p.1.receivedFull.length = 72
  agrees : Agrees p

theorem Inv.step (h : Inv p) {d : Datagram} (hs : bothStep p d = some q) :
    (hasPackage p.1 d → Inv q) ∧ (¬ hasPackage p.1 d → ¬ Agrees q) := by
  obtain ⟨hlen, hagrees⟩ := h
  obtain ⟨c', hc', rfl⟩ := Option.map_eq_some_iff.1 hs
  unfold Agrees at hagrees
  cases hwaiting : p.1.replies.waiting with
  | false =>
    obtain rfl := Option.some.inj ((step_of_not_waiting d hwaiting).symm.trans hc')
    refine ⟨fun _ => ⟨hlen, ?_⟩, fun hno => absurd (fun h => absurd h (by simp [hwaiting])) hno⟩
    simp [Agrees, Replies.next, ← hagrees, hwaiting]
  | true =>
    obtain ⟨info, hstep, hvalue⟩ := step_eq d hlen hwaiting
    obtain rfl := Option.some.inj (hstep.symm.trans hc')
    refine ⟨fun hok => ⟨(length_recvfrom _ _).trans hlen, ?_⟩, fun hno => ?_⟩
    · unfold Agrees
      by_cases hreply : d.isReply
      · have hlong := hok hwaiting hreply
        simp only [if_pos hreply, Replies.next, ← hagrees, if_pos (And.intro hwaiting (And.intro hreply hlong)),
          hvalue hlong]
      · simp [hreply, Replies.next, hagrees]
    · -- the datagram is too short, so it should not have been accepted
      have hreply : d.isReply := by
        by_contra hnot
        exact hno fun _ h => absurd h hnot
      have hshort : ¬ 4 ≤ d.payload.length := fun h => hno fun _ _ => h
      have hnext : p.2.next d = p.1.replies := by rw [Replies.next, if_neg fun h => hshort h.2.2, hagrees]
      intro heq
      have hlength := congrArg (fun r : Replies => r.accepted.length) (heq.trans hnext)
      simp [hreply] at hlength

theorem run_defined : ∀ (es : List Datagram) (p : Client × Replies), p.1.receivedFull.length = 72 →
    ∃ q, Run.run bothStep p es = some q
  | [], p, _ => ⟨p, rfl⟩
  | d :: es, p, h => by
    obtain ⟨c', hc', hlen⟩ := step_defined d h
    rw [Run.run_cons, bothStep, Run.observed, hc']
    exact run_defined es (c', p.2.next d) hlen

/-- **The client accepts the first datagram with the ports of a reply, each time it waits for one, and prints its first
four payload bytes, just when none of those datagrams is too short.** -/
theorem raw_udp_client_iff (es : List Datagram) :
    (∃ q, Run.run bothStep (start, start.replies) es = some q) ∧
      (Run.Always bothStep Agrees (start, start.replies) es ↔ Run.Steps step hasPackage start es) := by
  have hstart : Inv (start, start.replies) := ⟨List.length_replicate, rfl⟩
  obtain ⟨q, hq⟩ := run_defined es (start, start.replies) hstart.length
  refine ⟨⟨q, hq⟩, ?_⟩
  have hiff := Run.always_iff_steps Inv (P := Agrees) (fun _ _ _ h hok hs => (h.step hs).1 hok) (fun _ h => h.agrees)
    (fun _ _ _ h hno hs => (h.step hs).2 hno) hstart hq
  exact hiff.trans Run.steps_observed

/-- A datagram from the server's port. -/
def reply (payload : List Byte) : Datagram where
  ihl := 5
  ihl_ge := by decide
  ihl_le := by decide
  options := List.replicate 19 0
  length_options := rfl
  sourcePort := SELSERV_UDP_PORT
  sourcePort_lt := by decide
  destPort := 0
  destPort_lt := by decide
  lengthAndChecksum := (0, 0, 0, 0)
  payload := payload

/-- An empty datagram after a reply of 7 is accepted as another reply of 7. -/
theorem short_reply_accepted : ∃ q, Run.run bothStep (start, start.replies) [reply [7, 0, 0, 0], reply []] = some q ∧
    q.1.replies.accepted = [(reply [7, 0, 0, 0], 7), (reply [], 7)] ∧ ¬ Agrees q := by
  refine ⟨(Run.run bothStep (start, start.replies) [reply [7, 0, 0, 0], reply []]).get (by decide +kernel),
    (Option.some_get _).symm, ?_, ?_⟩
  · decide +kernel
  · decide +kernel

end RawUdp
end Eltex
