import EltexTasks.RawIp
import EltexTasks.SelectingServer
/-!
# RawSession — a raw socket client and the server it asks

raw_udp_client or raw_ip_udp_client with `selecting_server` on one host, whose sockets lose no datagram and to which
nobody connects over TCP.  The raw socket also gets the client's own datagrams, those of others and the server's
answers to them; the loop that receives them is the only thing the two clients differ in.  Where the others neither
write to the server nor use the ports of a reply, and their datagrams fit (`undisturbed`), each value is answered by one
more, whatever the order of the steps, and the -1 that ends the client ends the server (`raw_session`).
-/
namespace Eltex
namespace RawSession

open Run (run)
open RawUdp (Datagram Client Replies int32 SELSERV_UDP_PORT RAW_SOCKET_UDP_PORT)
open RawIp (request infoBytes)
open SelectingServer (Server Delivery intMax)

/-! ## The two clients -/

/-- What the session needs of a receiving loop: which datagrams it is safe to receive, that it passes over what is not
a reply, and that it accepts a reply that is whole. -/
structure ReceivingLoop where
  step : Client → Datagram → Option Client
  start : Client
  Inv : Client → Prop
  fits : Datagram → Bool
  inv_start : Inv start
  start_replies : start.replies = { accepted := [], waiting := true }
  fits_whole : ∀ d : Datagram, d.ihl = 5 → d.payload.length = 4 → fits d = true
  pass : ∀ (c : Client) (d : Datagram), Inv c → c.replies.waiting = true → fits d = true → ¬ d.isReply →
    ∃ c', step c d = some c' ∧ Inv c' ∧ c'.replies = c.replies
  accept : ∀ (c : Client) (d : Datagram), Inv c → c.replies.waiting = true → d.ihl = 5 → d.isReply →
    d.payload.length = 4 → ∃ c', step c d = some c' ∧ Inv c' ∧ c'.replies =
      { accepted := c.replies.accepted ++ [(d, int32 d.payload)], waiting := decide (int32 d.payload ≠ 0) }

/-- The loop of `raw_udp_client`. -/
def rawUdpClient : ReceivingLoop where
  step := RawUdp.step
  start := RawUdp.start
  Inv c := c.receivedFull.length = 72
  fits _ := true
  inv_start := List.length_replicate
  start_replies := rfl
  fits_whole _ _ _ := rfl
  pass c d hinv hwaiting _ hno := by
    obtain ⟨info, hstep, -⟩ := RawUdp.step_eq d hinv hwaiting
    exact ⟨_, hstep, (RawUdp.length_recvfrom _ _).trans hinv, by rw [if_neg hno]⟩
  accept c d hinv hwaiting _ hreply hlen := by
    obtain ⟨info, hstep, hvalue⟩ := RawUdp.step_eq d hinv hwaiting
    refine ⟨_, hstep, (RawUdp.length_recvfrom _ _).trans hinv, ?_⟩
    have hinfo : info = int32 d.payload := by
      rw [hvalue (Nat.le_of_eq hlen.symm), List.take_of_length_le (Nat.le_of_eq hlen)]
    rw [if_pos hreply, hinfo]

/-- The loop of `raw_ip_udp_client`. -/
def rawIpUdpClient : ReceivingLoop where
  step := RawIp.step
  start := RawIp.start
  Inv c := c.receivedFull.length = RawIp.messageSize
  fits d := decide (d.bytes.length ≤ RawIp.messageSize)
  inv_start := List.length_replicate
  start_replies := rfl
  fits_whole d hihl hlen := by
    rw [decide_eq_true_eq, RawIp.length_bytes, hihl, hlen]
    decide
  pass c d hinv hwaiting hfits hno := by
    obtain ⟨info, hstep, -⟩ := RawIp.step_eq d hinv hwaiting (of_decide_eq_true hfits)
    exact ⟨_, hstep, (RawUdp.length_recvfrom _ _).trans hinv, by rw [if_neg fun h : RawIp.isReply d => hno h.2]⟩
  accept c d hinv hwaiting hihl hreply hlen := by
    have hfits : d.bytes.length ≤ RawIp.messageSize := by
      rw [RawIp.length_bytes, hihl, hlen]
      decide
    obtain ⟨info, hstep, hvalue⟩ := RawIp.step_eq d hinv hwaiting hfits
    refine ⟨_, hstep, (RawUdp.length_recvfrom _ _).trans hinv, ?_⟩
    have hwhole : RawIp.isReply d := ⟨hihl, hreply⟩
    have hinfo : info = int32 d.payload := by
      rw [hvalue hwhole (Nat.le_of_eq hlen.symm), List.take_of_length_le (Nat.le_of_eq hlen)]
    rw [if_pos hwhole, hinfo]

/-! ## The session -/

/-- A client that is at its `scanf` is `asking`; `sent` are the values it has sent.  The datagrams are those the
server's socket has, and those the raw socket has. -/
structure Sys where
  client : Client
  asking : Bool
  sent : List Int
  toServer : List Datagram
  toClient : List Datagram
  server : Server

/-- A value is entered and sent; a datagram of another reaches the host, `atServer` if it is for the server's socket;
the client receives a datagram; the server finds one; the server answers it. -/
inductive Event where
  | enter (info : Int)
  | other (d : Datagram) (atServer : Bool)
  | receive
  | poll
  | answer

/-- What `recvfrom` of the server gets of a datagram. -/
def delivery (d : Datagram) : Delivery where
  bytes := (d.payload.take 4).map UInt8.toNat
  size := by
    rw [List.length_map, List.length_take]
    exact Nat.min_le_left _ _
  byte b hb := by
    obtain ⟨c, -, rfl⟩ := List.mem_map.1 hb
    exact c.toNat_lt

/-- The datagram of `sendbuf` that answers `d`. -/
def replyTo (ipRest : { l : List Byte // l.length = 19 }) (d : Datagram) (info : Int) : Datagram :=
  RawIp.noopt ipRest SELSERV_UDP_PORT d.sourcePort RawIp.selserv_lt d.sourcePort_lt info

/-- The answer to the client. -/
def reply (ipRest : { l : List Byte // l.length = 19 }) (info : Int) : Datagram :=
  RawIp.noopt ipRest SELSERV_UDP_PORT RAW_SOCKET_UDP_PORT RawIp.selserv_lt RawIp.raw_lt info

/-- The address a datagram comes to the server from, which is bound to the loopback. -/
def addressOf (d : Datagram) : ManCon.SockaddrIn := ⟨2130706433, d.sourcePort⟩

/-- The server's `recvfrom` of `d`. -/
def arrival (d : Datagram) : SelectingServer.Event := .recv (addressOf d) (some (delivery d))

variable (loop : ReceivingLoop) (ipRest : { l : List Byte // l.length = 19 })

def start : Sys where
  client := loop.start
  asking := true
  sent := []
  toServer := []
  toClient := []
  server := SelectingServer.start

/-- The raw socket gets every UDP datagram of the host. -/
def step (s : Sys) : Event → Option Sys
  | .enter info =>
    if s.asking ∧ s.client.replies.waiting ∧ -2 ^ 31 ≤ info ∧ info < 2 ^ 31 then
      some { s with
        asking := false, sent := s.sent ++ [info], toServer := s.toServer ++ [request ipRest info],
        toClient := s.toClient ++ [request ipRest info] }
    else none
  | .other d atServer =>
    if atServer ∧ d.destPort ≠ SELSERV_UDP_PORT then none
    else
      some { s with
        toServer := if atServer then s.toServer ++ [d] else s.toServer
        toClient := s.toClient ++ [d] }
  | .receive =>
    if s.asking then none
    else match s.toClient with
      | [] => none
      | d :: toClient => (loop.step s.client d).map fun client => { s with
          client := client, toClient := toClient
          asking := decide (s.client.replies.accepted.length < client.replies.accepted.length) }
  | .poll =>
    match s.toServer with
    | [] => none
    | _ :: _ => (SelectingServer.step s.server (.poll false true)).map fun server => { s with server := server }
  | .answer =>
    match s.toServer with
    | [] => none
    | d :: toServer =>
      (SelectingServer.step s.server (arrival d)).map fun server => { s with
        toServer := toServer, server := server
        toClient := s.toClient ++ (server.replies.drop s.server.replies.length).map fun r => replyTo ipRest d r.2 }

/-- The others do not write to the server and do not use the two ports the way a reply does, and what they write fits
the client's memory. -/
def undisturbed (_ : Sys) : Event → Prop
  | .other d atServer => atServer = false ∧ ¬ d.isReply ∧ loop.fits d = true
  | .enter _ => True
  | .receive => True
  | .poll => True
  | .answer => True

instance : ∀ (s : Sys) (e : Event), Decidable (undisturbed loop s e)
  | _, .other _ _ => inferInstanceAs (Decidable (_ ∧ _))
  | _, .enter _ => isTrue trivial
  | _, .receive => isTrue trivial
  | _, .poll => isTrue trivial
  | _, .answer => isTrue trivial

/-- The values the client has printed. -/
def printed (s : Sys) : List Int := s.client.replies.accepted.map Prod.snd

variable {loop ipRest} {s t : Sys}

/-! ## The server's two steps -/

/-- A whole package is the value that was sent. -/
theorem info_request (buf : SelectingServer.CommPackage) {v : Int} (hge : -2 ^ 31 ≤ v) (hlt : v < 2 ^ 31) :
    (SelectingServer.recvInto buf (some (delivery (request ipRest v)))).info = v := by
  have hbytes : (delivery (request ipRest v)).bytes = (infoBytes v).map UInt8.toNat :=
    congrArg (List.map UInt8.toNat) (List.take_of_length_le (Nat.le_of_eq (RawIp.length_infoBytes v)))
  have hwhole : (delivery (request ipRest v)).bytes.length = SelectingServer.commPackageSize := by
    rw [hbytes, List.length_map, RawIp.length_infoBytes, SelectingServer.commPackageSize]
  have hvalue := RawIp.bmod_infoBytes hge hlt
  rw [← hbytes, ← SelectingServer.recvInto_of_complete buf hwhole] at hvalue
  exact hvalue

theorem poll_head {server : Server} (hpc : server.pc = .head) (hbuf : server.buf.info ≠ -1) :
    SelectingServer.step server (.poll false true) = some { server with pc := .udp } := by
  rw [SelectingServer.step, hpc]
  dsimp only
  rw [if_neg Bool.false_ne_true, SelectingServer.afterTcp, if_neg hbuf, if_pos rfl]

/-- **The server answers a request**, unless it is for `INT_MAX`; after a -1 it stops. -/
theorem answer_udp {server : Server} (hpc : server.pc = .udp) {v : Int} (hge : -2 ^ 31 ≤ v) (hlt : v < 2 ^ 31) :
    (v = intMax → SelectingServer.step server (arrival (request ipRest v)) = none) ∧
    (v ≠ intMax → ∃ server', SelectingServer.step server (arrival (request ipRest v)) = some server' ∧
      server'.replies = server.replies ++ [(addressOf (request ipRest v), v + 1)] ∧ server'.buf.info = v ∧
      server'.pc = if v = -1 then .stopped else .head) := by
  obtain ⟨buf, hbuf⟩ : ∃ buf, SelectingServer.recvInto server.buf (some (delivery (request ipRest v))) = buf := ⟨_, rfl⟩
  have hinfo : buf.info = v := by
    rw [← hbuf]
    exact info_request server.buf hge hlt
  rw [arrival, SelectingServer.step, hpc]
  dsimp only
  have hreceived : ¬ some (delivery (request ipRest v)) = none := Option.some_ne_none _
  rw [SelectingServer.serve, if_neg hreceived, hbuf]
  constructor
  · intro hmax
    rw [if_pos (hinfo.trans hmax)]
    rfl
  · intro hmax
    rw [if_neg (by rw [hinfo]; exact hmax), hinfo]
    refine ⟨_, rfl, SelectingServer.afterUdp_replies _, ?_, ?_⟩
    · by_cases hlast : buf.info = -1
      · rw [SelectingServer.afterUdp, if_pos hlast]
        exact hinfo
      · rw [SelectingServer.afterUdp, if_neg hlast]
        exact hinfo
    · by_cases hlast : buf.info = -1
      · rw [SelectingServer.afterUdp, if_pos hlast, if_pos (hinfo.symm.trans hlast)]
      · rw [SelectingServer.afterUdp, if_neg hlast, if_neg fun h => hlast (hinfo.trans h)]

/-! ## Where the value is -/

/-- The client asks for a value; the value is on its way to the server; the answer is on its way back, among datagrams
that are no replies. -/
inductive Phase (ipRest : { l : List Byte // l.length = 19 }) (s : Sys) : Prop where
  | asking (hasking : s.asking = true) (hserver : s.toServer = []) (hclient : ∀ d ∈ s.toClient, ¬ d.isReply)
      (hprinted : printed s = s.sent.map (· + 1))
      (hlive : s.client.replies.waiting = true →
        s.server.pc = .head ∧ s.server.buf.info ≠ -1 ∧ s.sent.getLast? ≠ some (-1))
      (hdone : s.client.replies.waiting = false → s.server.pc = .stopped ∧ s.sent.getLast? = some (-1))
  | sent (hasking : s.asking = false) (hwaiting : s.client.replies.waiting = true) (old : List Int) (v : Int)
      (hsent : s.sent = old ++ [v]) (hserver : s.toServer = [request ipRest v])
      (hclient : ∀ d ∈ s.toClient, ¬ d.isReply) (hprinted : printed s = old.map (· + 1))
      (hpc : s.server.pc = .head ∨ s.server.pc = .udp) (hbuf : s.server.buf.info ≠ -1)
  | answered (hasking : s.asking = false) (hwaiting : s.client.replies.waiting = true) (old : List Int) (v : Int)
      (hsent : s.sent = old ++ [v]) (hserver : s.toServer = []) (pre post : List Datagram)
      (hclient : s.toClient = pre ++ reply ipRest (v + 1) :: post) (hpre : ∀ d ∈ pre, ¬ d.isReply)
      (hpost : ∀ d ∈ post, ¬ d.isReply) (hprinted : printed s = old.map (· + 1)) (hmax : v ≠ intMax)
      (hbuf : s.server.buf.info = v) (hpc : s.server.pc = if v = -1 then .stopped else .head)

structure Inv (loop : ReceivingLoop) (ipRest : { l : List Byte // l.length = 19 }) (s : Sys) : Prop where
  client : loop.Inv s.client
  fits : ∀ d ∈ s.toClient, loop.fits d = true
  range : ∀ v ∈ s.sent, -2 ^ 31 ≤ v ∧ v < 2 ^ 31
  phase : Phase ipRest s

theorem not_isReply_request (v : Int) : ¬ (request ipRest v).isReply := by
  rintro (h | h)
  · exact absurd h (show RAW_SOCKET_UDP_PORT ≠ SELSERV_UDP_PORT by decide)
  · exact absurd h (show SELSERV_UDP_PORT ≠ RAW_SOCKET_UDP_PORT by decide)

theorem isReply_reply (v : Int) : (reply ipRest v).isReply := .inl rfl

theorem forall_mem_concat {P : Datagram → Prop} {ds : List Datagram} {d : Datagram} (h : ∀ x ∈ ds, P x) (hd : P d) :
    ∀ x ∈ ds ++ [d], P x := by
  intro x hx
  rcases List.mem_append.1 hx with hx | hx
  · exact h x hx
  · rw [List.mem_singleton.1 hx]
    exact hd

theorem Inv.enter (h : Inv loop ipRest s) {info : Int} (hs : step loop ipRest s (.enter info) = some t) :
    Inv loop ipRest t := by
  simp only [step] at hs
  split at hs
  · rename_i hok
    obtain ⟨hasking, hwaiting, hge, hlt⟩ := hok
    obtain rfl := Option.some.inj hs
    refine ⟨h.client, forall_mem_concat h.fits (loop.fits_whole _ rfl (RawIp.length_infoBytes info)), ?_, ?_⟩
    · intro v hv
      rcases List.mem_append.1 hv with hv | hv
      · exact h.range v hv
      · rw [List.mem_singleton.1 hv]
        exact ⟨hge, hlt⟩
    · cases h.phase with
      | asking hasking' hserver hclient hprinted hlive hdone =>
        obtain ⟨hpc, hbuf, -⟩ := hlive hwaiting
        exact .sent rfl hwaiting s.sent info rfl (by rw [hserver]; rfl)
          (forall_mem_concat hclient (not_isReply_request info)) hprinted (.inl hpc) hbuf
      | sent hasking' => rw [hasking'] at hasking; cases hasking
      | answered hasking' => rw [hasking'] at hasking; cases hasking
  · cases hs

theorem Inv.other (h : Inv loop ipRest s) {d : Datagram} {atServer : Bool}
    (hok : undisturbed loop s (.other d atServer)) (hs : step loop ipRest s (.other d atServer) = some t) :
    Inv loop ipRest t := by
  obtain ⟨rfl, hno, hfits⟩ := hok
  simp only [step, Bool.false_eq_true, false_and, if_false] at hs
  obtain rfl := Option.some.inj hs
  refine ⟨h.client, forall_mem_concat h.fits hfits, h.range, ?_⟩
  cases h.phase with
  | asking hasking hserver hclient hprinted hlive hdone =>
    exact .asking hasking hserver (forall_mem_concat hclient hno) hprinted hlive hdone
  | sent hasking hwaiting old v hsent hserver hclient hprinted hpc hbuf =>
    exact .sent hasking hwaiting old v hsent hserver (forall_mem_concat hclient hno) hprinted hpc hbuf
  | answered hasking hwaiting old v hsent hserver pre post hclient hpre hpost hprinted hmax hbuf hpc =>
    refine .answered hasking hwaiting old v hsent hserver pre (post ++ [d]) ?_ hpre (forall_mem_concat hpost hno)
      hprinted hmax hbuf hpc
    rw [hclient, List.append_assoc]
    rfl

/-- A datagram that is no reply is received and passed over. -/
theorem receive_pass (h : Inv loop ipRest s) (hasking : s.asking = false) (hwaiting : s.client.replies.waiting = true)
    {d : Datagram} {rest : List Datagram} (hclient : s.toClient = d :: rest) (hno : ¬ d.isReply) :
    ∃ client, step loop ipRest s .receive = some { s with client := client, toClient := rest, asking := false } ∧
      loop.Inv client ∧ client.replies = s.client.replies := by
  obtain ⟨client, hstep, hinv, hreplies⟩ := loop.pass s.client d h.client hwaiting
    (h.fits d (by rw [hclient]; exact List.mem_cons_self)) hno
  refine ⟨client, ?_, hinv, hreplies⟩
  simp only [step, hasking, hclient, hstep, Option.map_some, hreplies]
  rw [if_neg Bool.false_ne_true, decide_eq_false (Nat.lt_irrefl _)]

/-- The reply is received, printed, and ends the client where it is 0. -/
theorem receive_accept (h : Inv loop ipRest s) (hasking : s.asking = false) (hwaiting : s.client.replies.waiting = true)
    {v : Int} (hge : -2 ^ 31 ≤ v) (hlt : v < 2 ^ 31) {rest : List Datagram}
    (hclient : s.toClient = reply ipRest v :: rest) :
    ∃ client, step loop ipRest s .receive = some { s with client := client, toClient := rest, asking := true } ∧
      loop.Inv client ∧ client.replies =
        { accepted := s.client.replies.accepted ++ [(reply ipRest v, v)], waiting := decide (v ≠ 0) } := by
  obtain ⟨client, hstep, hinv, hreplies⟩ := loop.accept s.client (reply ipRest v) h.client hwaiting rfl
    (isReply_reply v) (RawIp.length_infoBytes v)
  have hvalue : int32 (reply ipRest v).payload = v := RawIp.int32_infoBytes hge hlt
  rw [hvalue] at hreplies
  refine ⟨client, ?_, hinv, hreplies⟩
  simp only [step, hasking, hclient, hstep, Option.map_some, hreplies]
  rw [if_neg Bool.false_ne_true, decide_eq_true]
  rw [List.length_append, List.length_singleton]
  exact Nat.lt_succ_self _

theorem Inv.receive (h : Inv loop ipRest s) (hs : step loop ipRest s .receive = some t) : Inv loop ipRest t := by
  cases h.phase with
  | asking hasking =>
    simp only [step, hasking, if_true] at hs
    cases hs
  | sent hasking hwaiting old v hsent hserver hclient hprinted hpc hbuf =>
    cases hqueue : s.toClient with
    | nil =>
      simp only [step, hasking, hqueue, Bool.false_eq_true, if_false] at hs
      cases hs
    | cons d rest =>
      obtain ⟨client, hstep, hinv, hreplies⟩ := receive_pass h hasking hwaiting hqueue
        (hclient d (by rw [hqueue]; exact List.mem_cons_self))
      obtain rfl := Option.some.inj (hstep.symm.trans hs)
      refine ⟨hinv, fun x hx => h.fits x (by rw [hqueue]; exact List.mem_cons_of_mem _ hx), h.range, ?_⟩
      refine .sent rfl (by rw [hreplies]; exact hwaiting) old v hsent hserver
        (fun x hx => hclient x (by rw [hqueue]; exact List.mem_cons_of_mem _ hx)) ?_ hpc hbuf
      rw [printed, hreplies]
      exact hprinted
  | answered hasking hwaiting old v hsent hserver pre post hclient hpre hpost hprinted hmax hbuf hpc =>
    cases pre with
    | nil =>
      obtain ⟨hge, hlt⟩ := h.range v (by rw [hsent]; exact List.mem_append_right _ (List.mem_singleton_self v))
      have hmax' : v + 1 < 2 ^ 31 := by
        unfold intMax at hmax
        omega
      obtain ⟨client, hstep, hinv, hreplies⟩ := receive_accept h hasking hwaiting (by omega) hmax' hclient
      obtain rfl := Option.some.inj (hstep.symm.trans hs)
      refine ⟨hinv, fun x hx => h.fits x (by rw [hclient]; exact List.mem_cons_of_mem _ hx), h.range, ?_⟩
      refine .asking rfl hserver hpost ?_ (fun hlive => ?_) fun hdone => ?_
      · rw [printed, hreplies, List.map_append, show s.client.replies.accepted.map Prod.snd = _ from hprinted]
        rw [show ({ s with client := client, toClient := post, asking := true } : Sys).sent = old ++ [v] from hsent,
          List.map_append]
        rfl
      · rw [hreplies] at hlive
        have hne : v ≠ -1 := by
          rintro rfl
          simp at hlive
        rw [if_neg hne] at hpc
        refine ⟨hpc, by rw [hbuf]; exact hne, ?_⟩
        rw [show ({ s with client := client, toClient := post, asking := true } : Sys).sent = old ++ [v] from hsent,
          List.getLast?_concat]
        exact fun heq => hne (Option.some.inj heq)
      · rw [hreplies] at hdone
        have heq : v = -1 := by
          have := of_decide_eq_false hdone
          omega
        rw [if_pos heq] at hpc
        refine ⟨hpc, ?_⟩
        rw [show ({ s with client := client, toClient := post, asking := true } : Sys).sent = old ++ [v] from hsent,
          List.getLast?_concat, heq]
    | cons d pre =>
      obtain ⟨client, hstep, hinv, hreplies⟩ := receive_pass h hasking hwaiting hclient (hpre d List.mem_cons_self)
      obtain rfl := Option.some.inj (hstep.symm.trans hs)
      refine ⟨hinv, fun x hx => h.fits x (by rw [hclient]; exact List.mem_cons_of_mem _ hx), h.range, ?_⟩
      refine .answered rfl (by rw [hreplies]; exact hwaiting) old v hsent hserver pre post rfl
        (fun x hx => hpre x (List.mem_cons_of_mem _ hx)) hpost ?_ hmax hbuf hpc
      rw [printed, hreplies]
      exact hprinted

theorem Inv.poll (h : Inv loop ipRest s) (hs : step loop ipRest s .poll = some t) : Inv loop ipRest t := by
  cases h.phase with
  | asking _ hserver =>
    simp only [step, hserver] at hs
    cases hs
  | answered _ _ _ _ _ hserver =>
    simp only [step, hserver] at hs
    cases hs
  | sent hasking hwaiting old v hsent hserver hclient hprinted hpc hbuf =>
    simp only [step, hserver] at hs
    rcases hpc with hpc | hpc
    · rw [poll_head hpc hbuf] at hs
      obtain rfl := Option.some.inj hs
      exact ⟨h.client, h.fits, h.range, .sent hasking hwaiting old v hsent rfl hclient hprinted (.inr rfl) hbuf⟩
    · rw [SelectingServer.step, hpc] at hs
      cases hs

theorem Inv.answer (h : Inv loop ipRest s) (hs : step loop ipRest s .answer = some t) : Inv loop ipRest t := by
  cases h.phase with
  | asking _ hserver =>
    simp only [step, hserver] at hs
    cases hs
  | answered _ _ _ _ _ hserver =>
    simp only [step, hserver] at hs
    cases hs
  | sent hasking hwaiting old v hsent hserver hclient hprinted hpc hbuf =>
    obtain ⟨hge, hlt⟩ := h.range v (by rw [hsent]; exact List.mem_append_right _ (List.mem_singleton_self v))
    simp only [step, hserver] at hs
    rcases hpc with hpc | hpc
    · rw [arrival, SelectingServer.step, hpc] at hs
      cases hs
    · obtain ⟨hover, hanswer⟩ := @answer_udp ipRest s.server hpc v hge hlt
      by_cases hmax : v = intMax
      · rw [hover hmax] at hs
        cases hs
      · obtain ⟨server', hstep, hreplies, hbuf', hpc'⟩ := hanswer hmax
        rw [hstep, Option.map_some, hreplies, List.drop_left] at hs
        obtain rfl := Option.some.inj hs
        refine ⟨h.client, forall_mem_concat h.fits (loop.fits_whole _ rfl (RawIp.length_infoBytes _)), h.range, ?_⟩
        exact .answered hasking hwaiting old v hsent rfl s.toClient [] rfl hclient
          (fun d hd => absurd hd List.not_mem_nil) hprinted hmax hbuf' hpc'

theorem inv_start : Inv loop ipRest (start loop) := by
  have hreplies : (start loop).client.replies = { accepted := [], waiting := true } := loop.start_replies
  have hbuf : SelectingServer.start.buf.info ≠ -1 := by decide
  refine ⟨loop.inv_start, nofun, nofun, .asking rfl rfl nofun ?_ (fun _ => ⟨rfl, hbuf, nofun⟩) fun hdone => ?_⟩
  · rw [printed, hreplies]
    rfl
  · rw [hreplies] at hdone
    cases hdone

theorem Inv.step (h : Inv loop ipRest s) {e : Event} (hok : undisturbed loop s e)
    (hs : step loop ipRest s e = some t) : Inv loop ipRest t := by
  cases e with
  | enter info => exact h.enter hs
  | other d atServer => exact h.other hok hs
  | receive => exact h.receive hs
  | poll => exact h.poll hs
  | answer => exact h.answer hs

/-- While the client waits, a step of its own or of the server can be taken, unless one more than the value it has sent
is no `int`. -/
theorem Inv.progress (h : Inv loop ipRest s) (hasking : s.asking = false) (hmax : s.sent.getLast? ≠ some intMax) :
    ∃ e t, (e = .receive ∨ e = .poll ∨ e = .answer) ∧ RawSession.step loop ipRest s e = some t := by
  cases h.phase with
  | asking hasking' => rw [hasking] at hasking'; cases hasking'
  | sent _ hwaiting old v hsent hserver hclient hprinted hpc hbuf =>
    obtain ⟨hge, hlt⟩ := h.range v (by rw [hsent]; exact List.mem_append_right _ (List.mem_singleton_self v))
    rcases hpc with hpc | hpc
    · refine ⟨.poll, { s with server := { s.server with pc := .udp } }, .inr (.inl rfl), ?_⟩
      simp only [RawSession.step, hserver, poll_head hpc hbuf]
      rw [Option.map_some, ← hserver]
    · have hmax' : v ≠ intMax := by
        rintro rfl
        rw [hsent, List.getLast?_concat] at hmax
        exact hmax rfl
      obtain ⟨server', hstep, -⟩ := (@answer_udp ipRest s.server hpc v hge hlt).2 hmax'
      have hsome : (RawSession.step loop ipRest s .answer).isSome := by
        simp only [RawSession.step, hserver, hstep]
        rfl
      obtain ⟨t, ht⟩ := Option.isSome_iff_exists.1 hsome
      exact ⟨.answer, t, .inr (.inr rfl), ht⟩
  | answered _ hwaiting old v hsent hserver pre post hclient hpre hpost hprinted hmax' hbuf hpc =>
    refine ⟨.receive, ?_⟩
    cases pre with
    | nil =>
      obtain ⟨hge, hlt⟩ := h.range v (by rw [hsent]; exact List.mem_append_right _ (List.mem_singleton_self v))
      unfold intMax at hmax'
      obtain ⟨client, hstep, -⟩ := receive_accept h hasking hwaiting (by omega) (by omega) hclient
      exact ⟨_, .inl rfl, hstep⟩
    | cons d pre =>
      obtain ⟨client, hstep, -⟩ := receive_pass h hasking hwaiting hclient (hpre d List.mem_cons_self)
      exact ⟨_, .inl rfl, hstep⟩

/-- The two clients. -/
inductive Variant where
  | rawUdp
  | rawIpUdp
deriving DecidableEq, Repr

def Variant.receivingLoop : Variant → ReceivingLoop
  | .rawUdp => rawUdpClient
  | .rawIpUdp => rawIpUdpClient

/-- **The session**, in any order of its steps and among any datagrams of others that leave it undisturbed: what the
client has printed is one more than each value sent so far, the last one's answer at most missing while it waits, where
some step can be taken unless the value is `INT_MAX`; and when it has asked for the last time both it and the server are
done exactly if the value was -1. -/
theorem raw_session (client : Variant) (ipRest : { l : List Byte // l.length = 19 }) (es : List Event) (s : Sys)
    (hrun : run (step client.receivingLoop ipRest) (start client.receivingLoop) es = some s)
    (hother : Run.Steps (step client.receivingLoop ipRest) (undisturbed client.receivingLoop)
      (start client.receivingLoop) es) :
    (printed s <+: s.sent.map (· + 1) ∧ s.sent.length ≤ (printed s).length + 1) ∧
    (s.asking = true → printed s = s.sent.map (· + 1) ∧
      (s.client.replies.waiting = false ↔ s.sent.getLast? = some (-1)) ∧
      (s.sent.getLast? = some (-1) ↔ s.server.pc = .stopped)) ∧
    (s.asking = false → s.sent.getLast? ≠ some intMax →
      ∃ e t, (e = .receive ∨ e = .poll ∨ e = .answer) ∧ step client.receivingLoop ipRest s e = some t) := by
  have hinv : Inv client.receivingLoop ipRest s :=
    Run.run_inv_of_steps (fun _ _ _ h hok hs => Inv.step h hok hs) es _ _ inv_start hother hrun
  refine ⟨?_, fun hasking => ?_, fun hasking hmax => hinv.progress hasking hmax⟩
  · cases hinv.phase with
    | asking hasking hserver hclient hprinted =>
      rw [hprinted, List.length_map]
      exact ⟨List.prefix_refl _, Nat.le_succ _⟩
    | sent hasking hwaiting old v hsent hserver hclient hprinted =>
      rw [hprinted, hsent, List.length_map, List.map_append, List.length_append]
      exact ⟨List.prefix_append _ _, Nat.le_refl _⟩
    | answered hasking hwaiting old v hsent hserver pre post hclient hpre hpost hprinted =>
      rw [hprinted, hsent, List.length_map, List.map_append, List.length_append]
      exact ⟨List.prefix_append _ _, Nat.le_refl _⟩
  · cases hinv.phase with
    | asking _ hserver hclient hprinted hlive hdone =>
      refine ⟨hprinted, ?_⟩
      cases hwaiting : s.client.replies.waiting with
      | true =>
        obtain ⟨hpc, -, hlast⟩ := hlive hwaiting
        exact ⟨iff_of_false nofun hlast, iff_of_false hlast (by rw [hpc]; nofun)⟩
      | false =>
        obtain ⟨hpc, hlast⟩ := hdone hwaiting
        exact ⟨iff_of_true rfl hlast, iff_of_true hlast hpc⟩
    | sent hasking' => rw [hasking] at hasking'; cases hasking'
    | answered hasking' => rw [hasking] at hasking'; cases hasking'

/-- A datagram of another port, for nobody here. -/
def stranger : Datagram := RawIp.noopt RawIp.ipRest 53 53 (by decide) (by decide) 0

/-- A value of 7 and then -1, where the client's own datagrams are received first, and one of another in between. -/
def sevenThenLast : List Event :=
  [.enter 7, .poll, .receive, .other stranger false, .answer, .receive, .receive, .enter (-1), .poll, .answer, .receive,
    .receive]

theorem run_sevenThenLast : (run (step Variant.rawIpUdp.receivingLoop RawIp.ipRest)
    (start Variant.rawIpUdp.receivingLoop) sevenThenLast).map (fun s => (s.asking, s.sent)) = some (true, [7, -1]) := by
  decide +kernel

/-- At the end both are done; while the 7 is not answered a step can be taken. -/
theorem raw_session_sevenThenLast : ∃ s u,
    run (step Variant.rawIpUdp.receivingLoop RawIp.ipRest) (start Variant.rawIpUdp.receivingLoop) sevenThenLast =
      some s ∧
    printed s = [8, 0] ∧ s.client.replies.waiting = false ∧ s.server.pc = .stopped ∧
    run (step Variant.rawIpUdp.receivingLoop RawIp.ipRest) (start Variant.rawIpUdp.receivingLoop)
      (sevenThenLast.take 5) = some u ∧
    u.sent.length ≤ (printed u).length + 1 ∧
    ∃ e t, (e = .receive ∨ e = .poll ∨ e = .answer) ∧
      step Variant.rawIpUdp.receivingLoop RawIp.ipRest u e = some t := by
  obtain ⟨s, hs, hlast⟩ := Option.map_eq_some_iff.1 run_sevenThenLast
  obtain ⟨hasking, hsent⟩ := Prod.mk.inj hlast
  have hsteps : Run.Steps (step Variant.rawIpUdp.receivingLoop RawIp.ipRest)
      (undisturbed Variant.rawIpUdp.receivingLoop) (start Variant.rawIpUdp.receivingLoop) sevenThenLast := by
    decide +kernel
  obtain ⟨-, hdone, -⟩ := raw_session .rawIpUdp RawIp.ipRest sevenThenLast s hs hsteps
  obtain ⟨hprinted, hclient, hserver⟩ := hdone hasking
  rw [hsent] at hprinted hclient hserver
  -- the state in which the answer is on its way
  have hfive : (run (step Variant.rawIpUdp.receivingLoop RawIp.ipRest) (start Variant.rawIpUdp.receivingLoop)
      (sevenThenLast.take 5)).map (fun u => (u.asking, u.sent)) = some (false, [7]) := by decide +kernel
  obtain ⟨u, hu, hlast⟩ := Option.map_eq_some_iff.1 hfive
  obtain ⟨hwaits, hseven⟩ := Prod.mk.inj hlast
  obtain ⟨⟨-, hlength⟩, -, hgoes⟩ := raw_session .rawIpUdp RawIp.ipRest (sevenThenLast.take 5) u hu
    (hsteps.of_prefix (List.take_prefix 5 sevenThenLast))
  refine ⟨s, u, hs, hprinted, hclient.2 rfl, hserver.1 rfl, hu, hlength, hgoes hwaits ?_⟩
  rw [hseven]
  decide

end RawSession
end Eltex
