import EltexTasks.PointerBytes
import EltexTasks.RawUdp
/-!
# RawIp — the client that writes its own IP header

raw_socket/source/raw_socket_clients.c: `init_message_with_ipheader` and `raw_ip_udp_client`.  What it sends is a
datagram (`message_bytes`).  It receives up to 72 bytes into 32: a longer datagram than its own is written past the end
of `received_full`, and among those that fit it reads like the other client (`raw_ip_udp_client_iff`).
-/
namespace Eltex
namespace RawIp

open RawUdp (Datagram Client Replies RawMessage recvfrom readMessage portBytes int32 start SELSERV_UDP_PORT
  RAW_SOCKET_UDP_PORT)

/-! ## The message -/

/-- `ip_noopt_udp_t`; the fields that are set with `htons` have their value in host order. -/
structure IpNooptUdp where
  versionAndIhl : Byte
  typeOfService : Byte
  totalLength : Nat
  identification : Nat
  flagsAndFragmentOffset : Nat
  ttl : Byte
  protocol : Byte
  ipChecksum : Nat
  sourceAddr : List Byte
  destAddr : List Byte
  sourcePort : Nat
  destPort : Nat
  udpLength : Nat
  udpChecksum : Nat
  info : Int

/-- `sizeof(ip_noopt_udp_t)` -/
def messageSize : Nat := 32

/-- `init_message_with_ipheader` -/
def initMessageWithIpheader : IpNooptUdp where
  versionAndIhl := 0x45
  typeOfService := 0
  totalLength := messageSize
  identification := 0
  flagsAndFragmentOffset := 0
  ttl := 100
  protocol := 17
  ipChecksum := 0
  sourceAddr := [0, 0, 0, 0]
  destAddr := [0, 0, 0, 0]
  sourcePort := 0
  destPort := 0
  udpLength := 8 + 4
  udpChecksum := 0
  info := 0

/-- `inet_aton("127.0.0.1", ..)` -/
def loopback : List Byte := [127, 0, 0, 1]

/-- The message with `info` in it, as it is sent. -/
def message (info : Int) : IpNooptUdp :=
  { initMessageWithIpheader with
    sourceAddr := loopback, destAddr := loopback, sourcePort := RAW_SOCKET_UDP_PORT, destPort := SELSERV_UDP_PORT,
    info := info }

/-- An `int` in memory. -/
def infoBytes (info : Int) : List Byte := (leBytes 4 (info % 2 ^ 32).toNat).map UInt8.ofNat

def IpNooptUdp.bytes (m : IpNooptUdp) : List Byte :=
  [m.versionAndIhl, m.typeOfService] ++ portBytes m.totalLength ++ portBytes m.identification ++
    portBytes m.flagsAndFragmentOffset ++ [m.ttl, m.protocol] ++ portBytes m.ipChecksum ++ m.sourceAddr ++ m.destAddr ++
    portBytes m.sourcePort ++ portBytes m.destPort ++ portBytes m.udpLength ++ portBytes m.udpChecksum ++
    infoBytes m.info

theorem selserv_lt : SELSERV_UDP_PORT < 2 ^ 16 := by decide

theorem raw_lt : RAW_SOCKET_UDP_PORT < 2 ^ 16 := by decide

theorem five_le : 5 ≤ 5 := Nat.le_refl 5

theorem five_le_fifteen : 5 ≤ 15 := by decide

theorem length_ipRest (ipRest : { l : List Byte // l.length = 19 }) : ipRest.val.length + 1 = 4 * 5 := by
  rw [ipRest.property]

/-- A datagram without options that holds an `int`, where `ipRest` is the IP header without its first byte. -/
def noopt (ipRest : { l : List Byte // l.length = 19 }) (sourcePort destPort : Nat) (hsource : sourcePort < 2 ^ 16)
    (hdest : destPort < 2 ^ 16) (info : Int) : Datagram where
  ihl := 5
  ihl_ge := five_le
  ihl_le := five_le_fifteen
  options := ipRest.val
  length_options := length_ipRest ipRest
  sourcePort := sourcePort
  sourcePort_lt := hsource
  destPort := destPort
  destPort_lt := hdest
  lengthAndChecksum := (0, 12, 0, 0)
  payload := infoBytes info

/-- The datagram a client sends to the server for `info`. -/
def request (ipRest : { l : List Byte // l.length = 19 }) (info : Int) : Datagram :=
  noopt ipRest RAW_SOCKET_UDP_PORT SELSERV_UDP_PORT raw_lt selserv_lt info

/-- The IP header of the message, without its first byte. -/
def ipRest : { l : List Byte // l.length = 19 } :=
  ⟨[0, 0, 32, 0, 0, 0, 0, 100, 17, 0, 0] ++ loopback ++ loopback, by decide⟩

/-- **What is sent is a datagram** from the client's port to the server's, with the value in it. -/
theorem message_bytes (info : Int) : (message info).bytes = (request ipRest info).bytes := by
  have hheaders : [0x45, 0] ++ portBytes messageSize ++ portBytes 0 ++ portBytes 0 ++ [100, 17] ++ portBytes 0 ++
      loopback ++ loopback ++ portBytes RAW_SOCKET_UDP_PORT ++ portBytes SELSERV_UDP_PORT ++ portBytes (8 + 4) ++ portBytes 0 =
      UInt8.ofNat (4 * 16 + 5) :: ipRest.val ++
        (portBytes RAW_SOCKET_UDP_PORT ++ portBytes SELSERV_UDP_PORT ++ [0, 12, 0, 0]) := by decide
  exact congrArg (· ++ infoBytes info) hheaders

theorem toNat_infoBytes (info : Int) :
    ofLeBytes ((infoBytes info).map UInt8.toNat) = (info % 2 ^ 32).toNat := by
  have hlt : (info % 2 ^ 32).toNat < 256 ^ 4 := by omega
  have hmap : (infoBytes info).map UInt8.toNat = leBytes 4 (info % 2 ^ 32).toNat := by
    rw [infoBytes, List.map_map]
    refine (List.map_congr_left fun b hb => ?_).trans (List.map_id _)
    have hb := lt_of_mem_leBytes hb
    show (UInt8.ofNat b).toNat = b
    rw [UInt8.toNat_ofNat']
    omega
  rw [hmap, ofLeBytes_leBytes 4 _ hlt]

theorem foldr_eq_ofLeBytes : ∀ bytes : List Byte,
    bytes.foldr (fun b n => b.toNat + 256 * n) 0 = ofLeBytes (bytes.map UInt8.toNat)
  | [] => rfl
  | b :: bytes => by rw [List.foldr_cons, foldr_eq_ofLeBytes bytes, List.map_cons, ofLeBytes]

/-- An `int` is read back from its bytes. -/
theorem bmod_infoBytes {info : Int} (hge : -2 ^ 31 ≤ info) (hlt : info < 2 ^ 31) :
    (ofLeBytes ((infoBytes info).map UInt8.toNat) : Int).bmod (2 ^ 32) = info := by
  have hpow : (info % 2 ^ 32 : Int) = info % ((2 ^ 32 : Nat) : Int) := by push_cast; rfl
  rw [toNat_infoBytes, Int.toNat_of_nonneg (by omega), hpow, Int.emod_bmod]
  exact Int.bmod_eq_of_le (by omega) (by omega)

theorem int32_infoBytes {info : Int} (hge : -2 ^ 31 ≤ info) (hlt : info < 2 ^ 31) : int32 (infoBytes info) = info := by
  rw [int32, foldr_eq_ofLeBytes, BitVec.toInt_ofNat', bmod_infoBytes hge hlt]

theorem length_infoBytes (info : Int) : (infoBytes info).length = 4 := by
  rw [infoBytes, List.length_map, length_leBytes]

/-! ## The receiving loop -/

/-- The next datagram: `none` where it is written past the end of `received_full`. -/
def step (c : Client) (d : Datagram) : Option Client :=
  if c.replies.waiting then
    if c.receivedFull.length < min d.bytes.length (12 + 60) then none
    else
      let receivedFull := recvfrom c.receivedFull d.bytes
      receivedFull[0]?.bind fun versionAndIhl =>
        if (versionAndIhl &&& 0x0f).toNat > 5 then some { c with receivedFull := receivedFull }
        else
          (readMessage receivedFull 20).map fun receivedUdp : RawMessage =>
            if receivedUdp.sourcePort = SELSERV_UDP_PORT ∨ receivedUdp.destPort = RAW_SOCKET_UDP_PORT then
              { receivedFull := receivedFull
                replies :=
                  { accepted := c.replies.accepted ++ [(d, receivedUdp.info)], waiting := receivedUdp.info ≠ 0 } }
            else { c with receivedFull := receivedFull }
  else some c

/-- The client before the first datagram. -/
def start : Client where
  receivedFull := List.replicate messageSize 0
  replies := { accepted := [], waiting := true }

/-- A reply without options in its IP header. -/
def isReply (d : Datagram) : Prop := d.ihl = 5 ∧ d.isReply

instance (d : Datagram) : Decidable (isReply d) := inferInstanceAs (Decidable (_ ∧ _))

/-- What should be accepted, as for the other client. -/
def next (r : Replies) (d : Datagram) : Replies := if d.ihl = 5 then r.next d else r

/-- The datagram fits. -/
def fits (c : Client) (d : Datagram) : Prop := c.replies.waiting → d.bytes.length ≤ messageSize

/-- The datagram fits, and where it has the ports of a reply it holds the value: the 32 bytes are the message. -/
def hasPackage (c : Client) (d : Datagram) : Prop :=
  c.replies.waiting → d.bytes.length ≤ messageSize ∧ (isReply d → 4 ≤ d.payload.length)

/-- The client beside the replies that it should have accepted. -/
def bothStep : Client × Replies → Datagram → Option (Client × Replies) := Run.observed step fun _ d r => next r d

def Agrees (p : Client × Replies) : Prop := p.1.replies = p.2

variable {d : Datagram} {c : Client}

/-! ## One datagram -/

theorem length_bytes (d : Datagram) : d.bytes.length = 4 * d.ihl + 8 + d.payload.length := by
  have hip : (UInt8.ofNat (4 * 16 + d.ihl) :: d.options).length = 4 * d.ihl := d.length_options
  rw [Datagram.bytes, List.length_append, List.length_append, hip, RawUdp.length_udpHeader]

/-- The header byte is the datagram's. -/
theorem getElem?_recvfrom (d : Datagram) {receivedFull : List Byte} (hlen : receivedFull.length = messageSize) :
    (recvfrom receivedFull d.bytes)[0]? = some (UInt8.ofNat (4 * 16 + d.ihl)) := by
  rw [recvfrom, hlen]
  rfl

/-- The low four bits of the first byte. -/
theorem toNat_ihl (d : Datagram) : (UInt8.ofNat (4 * 16 + d.ihl) &&& 0x0f).toNat = d.ihl := by
  have := RawUdp.ihl_of_bytes d
  omega

theorem recvfrom_of_fits (d : Datagram) {receivedFull : List Byte} (hlen : receivedFull.length = messageSize)
    (hfits : d.bytes.length ≤ messageSize) :
    recvfrom receivedFull d.bytes = d.bytes ++ receivedFull.drop d.bytes.length := by
  rw [recvfrom, hlen, List.take_of_length_le hfits]

/-- What the client reads of a datagram without options: its ports, and its value where it has one. -/
theorem readMessage_eq (d : Datagram) (hihl : d.ihl = 5) {receivedFull : List Byte}
    (hlen : receivedFull.length = messageSize) (hfits : d.bytes.length ≤ messageSize) :
    ∃ info, readMessage (recvfrom receivedFull d.bytes) 20 = some ⟨d.sourcePort, d.destPort, info⟩ ∧
      (4 ≤ d.payload.length → info = int32 (d.payload.take 4)) := by
  have hip : (UInt8.ofNat (4 * 16 + d.ihl) :: d.options).length = 20 := by
    have := d.length_options
    rw [List.length_cons]
    omega
  have hbytes := length_bytes d
  have hdrop : (recvfrom receivedFull d.bytes).drop 20 =
      d.udpHeader ++ (d.payload ++ receivedFull.drop d.bytes.length) := by
    rw [recvfrom_of_fits d hlen hfits, Datagram.bytes, List.append_assoc, List.append_assoc, List.drop_left' hip]
  have hrest : (d.payload ++ receivedFull.drop d.bytes.length).length = 4 := by
    rw [List.length_append, List.length_drop, hlen, messageSize] at *
    omega
  obtain ⟨i0, i1, i2, i3, hpackage⟩ :
      ∃ i0 i1 i2 i3, d.payload ++ receivedFull.drop d.bytes.length = [i0, i1, i2, i3] := by
    match d.payload ++ receivedFull.drop d.bytes.length, hrest with
    | [i0, i1, i2, i3], _ => exact ⟨i0, i1, i2, i3, rfl⟩
  refine ⟨int32 [i0, i1, i2, i3], ?_, fun hlong => ?_⟩
  · rw [readMessage, hdrop, hpackage]
    simp only [Datagram.udpHeader, portBytes, List.cons_append, List.nil_append, List.take_succ_cons, List.take_zero]
    rw [RawUdp.toNat_portBytes d.sourcePort_lt, RawUdp.toNat_portBytes d.destPort_lt]
  · rw [← hpackage, List.take_of_length_le (by rw [messageSize] at hfits; omega)]
    have hnone : receivedFull.drop d.bytes.length = [] := by
      apply List.drop_eq_nil_of_le
      rw [hlen, messageSize]
      omega
    rw [hnone, List.append_nil]

/-- **The client reads a datagram that fits inside `received_full`** and accepts it by its header and its ports. -/
theorem step_eq (d : Datagram) (hlen : c.receivedFull.length = messageSize) (hwaiting : c.replies.waiting = true)
    (hfits : d.bytes.length ≤ messageSize) :
    ∃ info, step c d = some
        { receivedFull := recvfrom c.receivedFull d.bytes
          replies :=
            if isReply d then { accepted := c.replies.accepted ++ [(d, info)], waiting := decide (info ≠ 0) }
            else c.replies } ∧
      (isReply d → 4 ≤ d.payload.length → info = int32 (d.payload.take 4)) := by
  have hroom : ¬ c.receivedFull.length < min d.bytes.length (12 + 60) := by
    rw [hlen]
    omega
  by_cases hihl : d.ihl = 5
  · obtain ⟨info, hread, hvalue⟩ := readMessage_eq d hihl hlen hfits
    refine ⟨info, ?_, fun _ => hvalue⟩
    rw [step, if_pos hwaiting, if_neg hroom]
    simp only [getElem?_recvfrom d hlen, Option.bind_some, toNat_ihl, hread, Option.map_some]
    rw [if_neg (by omega)]
    by_cases hreply : d.isReply
    · rw [if_pos (show isReply d from ⟨hihl, hreply⟩), if_pos (show d.sourcePort = _ ∨ d.destPort = _ from hreply)]
    · rw [if_neg fun h : isReply d => hreply h.2, if_neg (show ¬ (d.sourcePort = _ ∨ d.destPort = _) from hreply)]
  · refine ⟨0, ?_, fun h => absurd h.1 hihl⟩
    have hge := d.ihl_ge
    rw [step, if_pos hwaiting, if_neg hroom]
    simp only [getElem?_recvfrom d hlen, Option.bind_some, toNat_ihl]
    rw [if_pos (by omega), if_neg fun h : isReply d => hihl h.1]

theorem step_of_not_waiting (d : Datagram) (hwaiting : c.replies.waiting = false) : step c d = some c := by
  rw [step, if_neg (by simp [hwaiting])]

theorem step_of_long (hlen : c.receivedFull.length = messageSize) (hwaiting : c.replies.waiting = true)
    (hlong : ¬ d.bytes.length ≤ messageSize) : step c d = none := by
  rw [step, if_pos hwaiting, if_pos]
  rw [hlen]
  simp only [messageSize] at hlong ⊢
  omega

/-! ## Any sequence of datagrams -/

variable {p q : Client × Replies}

theorem step_isSome_iff (hlen : c.receivedFull.length = messageSize) : (step c d).isSome ↔ fits c d := by
  cases hwaiting : c.replies.waiting with
  | false =>
    rw [step_of_not_waiting d hwaiting]
    exact iff_of_true rfl fun h => by rw [hwaiting] at h; cases h
  | true =>
    by_cases hfits : d.bytes.length ≤ messageSize
    · obtain ⟨info, hstep, -⟩ := step_eq d hlen hwaiting hfits
      rw [hstep]
      exact iff_of_true rfl fun _ => hfits
    · rw [step_of_long hlen hwaiting hfits]
      exact iff_of_false Bool.false_ne_true fun h => hfits (h hwaiting)

theorem length_step {c' : Client} (hlen : c.receivedFull.length = messageSize) (hs : step c d = some c') :
    c'.receivedFull.length = messageSize := by
  cases hwaiting : c.replies.waiting with
  | false =>
    obtain rfl := Option.some.inj ((step_of_not_waiting d hwaiting).symm.trans hs)
    exact hlen
  | true =>
    have hfits : d.bytes.length ≤ messageSize := (step_isSome_iff hlen).1 (by rw [hs]; rfl) hwaiting
    obtain ⟨info, hstep, -⟩ := step_eq d hlen hwaiting hfits
    obtain rfl := Option.some.inj (hstep.symm.trans hs)
    exact (RawUdp.length_recvfrom _ _).trans hlen

/-- The client has accepted what it should, and its buffer has its length. -/
structure Inv (p : Client × Replies) : Prop where
  length : p.1.receivedFull.length = messageSize
  agrees : Agrees p

theorem Inv.step (h : Inv p) {d : Datagram} (hs : bothStep p d = some q) :
    (hasPackage p.1 d → Inv q) ∧ (¬ hasPackage p.1 d → ¬ Agrees q) := by
  obtain ⟨hlen, hagrees⟩ := h
  obtain ⟨c', hc', rfl⟩ := Option.map_eq_some_iff.1 hs
  have hlen' := length_step hlen hc'
  have hfits := (step_isSome_iff hlen).1 (by rw [hc']; rfl : (RawIp.step p.1 d).isSome)
  unfold Agrees at hagrees
  cases hwaiting : p.1.replies.waiting with
  | false =>
    obtain rfl := Option.some.inj ((step_of_not_waiting d hwaiting).symm.trans hc')
    refine ⟨fun _ => ⟨hlen, ?_⟩, fun hno => absurd (fun h => by rw [hwaiting] at h; cases h) hno⟩
    simp [Agrees, next, Replies.next, ← hagrees, hwaiting]
  | true =>
    obtain ⟨info, hstep, hvalue⟩ := step_eq d hlen hwaiting (hfits hwaiting)
    obtain rfl := Option.some.inj (hstep.symm.trans hc')
    refine ⟨fun hok => ⟨hlen', ?_⟩, fun hno => ?_⟩
    · unfold Agrees
      by_cases hreply : isReply d
      · have hlong := (hok hwaiting).2 hreply
        simp only [if_pos hreply, next, if_pos hreply.1, Replies.next, ← hagrees,
          if_pos (And.intro hwaiting (And.intro hreply.2 hlong)), hvalue hreply hlong]
      · by_cases hihl : d.ihl = 5
        · have hports : ¬ d.isReply := fun h => hreply ⟨hihl, h⟩
          simp [hreply, next, Replies.next, hports, hagrees]
        · simp [hreply, next, hihl, hagrees]
    · -- the datagram is too short, so it should not have been accepted
      have hreply : isReply d := by
        by_contra hnot
        exact hno fun h => ⟨hfits h, fun h' => absurd h' hnot⟩
      have hshort : ¬ 4 ≤ d.payload.length := fun h => hno fun h' => ⟨hfits h', fun _ => h⟩
      have hnext : next p.2 d = p.1.replies := by
        rw [next, if_pos hreply.1, Replies.next, if_neg fun h => hshort h.2.2, hagrees]
      intro heq
      have hlength := congrArg (fun r : Replies => r.accepted.length) (heq.trans hnext)
      simp [hreply] at hlength

theorem run_isSome_iff : ∀ (es : List Datagram) (c : Client), c.receivedFull.length = messageSize →
    ((∃ c', Run.run step c es = some c') ↔ Run.Steps step fits c es)
  | [], c, _ => iff_of_true ⟨c, rfl⟩ Run.steps_nil
  | d :: es, c, hlen => by
    rw [Run.steps_cons, Run.run_cons]
    cases hs : step c d with
    | none =>
      refine iff_of_false (by rintro ⟨c', hc'⟩; cases hc') fun h => ?_
      have := (step_isSome_iff hlen).2 h.1
      rw [hs] at this; cases this
    | some m =>
      have hfits := (step_isSome_iff hlen).1 (by rw [hs]; rfl : (step c d).isSome)
      rw [Option.bind_some, run_isSome_iff es m (length_step hlen hs)]
      exact ⟨fun h => ⟨hfits, fun m' hm' => Option.some.inj hm' ▸ h⟩, fun h => h.2 m rfl⟩

/-- **The client stays inside `received_full` just when no datagram it receives is longer than its own message**, and
then it accepts the first datagram without options that has the ports of a reply, each time it waits for one, and prints
its first four payload bytes, just when none of those is too short. -/
theorem raw_ip_udp_client_iff (es : List Datagram) :
    ((∃ c, Run.run step start es = some c) ↔ Run.Steps step fits start es) ∧
      ((∃ c, Run.run step start es = some c) →
        (Run.Always bothStep Agrees (start, start.replies) es ↔ Run.Steps step hasPackage start es)) := by
  have hlen : start.receivedFull.length = messageSize := List.length_replicate
  have hstart : Inv (start, start.replies) := ⟨hlen, rfl⟩
  refine ⟨run_isSome_iff es start hlen, fun ⟨c, hc⟩ => ?_⟩
  have hboth : (Run.run bothStep (start, start.replies) es).map Prod.fst = some c :=
    (Run.run_observed es start start.replies).trans hc
  obtain ⟨q, hq, -⟩ := Option.map_eq_some_iff.1 hboth
  have hiff := Run.always_iff_steps Inv (P := Agrees) (fun _ _ _ h hok hs => (h.step hs).1 hok) (fun _ h => h.agrees)
    (fun _ _ _ h hno hs => (h.step hs).2 hno) hstart hq
  exact hiff.trans Run.steps_observed

end RawIp
end Eltex
