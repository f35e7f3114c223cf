import EltexTasks.Run
import EltexTasks.ManConServer
/-!
# SelectingServer — one buffer for all clients

server_models/source/selecting_server.c: `selecting_server`.  A delivery overwrites as many bytes of `buf` as it has:
the answer is the client's own exactly when all four bytes have come (`answered_alone_iff`), for the rest of the buffer
is what earlier clients left there.
-/
namespace Eltex
namespace SelectingServer

open ManCon (SockaddrIn)

/-- `sizeof(comm_package_t)` -/
def commPackageSize : Nat := 4

def intMax : Int := 2 ^ 31 - 1

/-- The bytes of a `comm_package_t`. -/
structure CommPackage where
  bytes : List Nat
  size : bytes.length = commPackageSize
  byte : ∀ b ∈ bytes, b < 256
deriving DecidableEq

/-- The bytes one `recv` or `recvfrom` delivers. -/
structure Delivery where
  bytes : List Nat
  size : bytes.length ≤ commPackageSize
  byte : ∀ b ∈ bytes, b < 256
deriving DecidableEq

def CommPackage.info (p : CommPackage) : Int := (ofLeBytes p.bytes : Int).bmod (2 ^ 32)

/-- The buffer after a `recv`; `none` is one that failed. -/
def recvInto (buf : CommPackage) : Option Delivery → CommPackage
  | none => buf
  | some d =>
    { bytes := memcpy buf.bytes d.bytes d.bytes.length
      size := by
        have hbuf := buf.size
        have hd := d.size
        simp [memcpy]
        omega
      byte := by
        intro b hb
        rcases List.mem_append.1 hb with hb | hb
        · exact d.byte b (List.mem_of_mem_take hb)
        · exact buf.byte b (List.mem_of_mem_drop hb) }

inductive Pc where
  | head
  /-- A connection is waiting; `udp` tells whether a datagram is as well. -/
  | tcp (udp : Bool)
  | udp
  | stopped
deriving DecidableEq, Repr

/-- The server; `replies` are the values sent, each with the address it was sent to. -/
structure Server where
  pc : Pc
  buf : CommPackage
  sendbuf : Int
  clientAddress : SockaddrIn
  replies : List (SockaddrIn × Int)
deriving DecidableEq

/-- The state before the first `poll`. -/
def start : Server where
  pc := .head
  buf := ⟨[0, 0, 0, 0], rfl, by decide⟩
  sendbuf := 0
  clientAddress := ⟨0, 0⟩
  replies := []

inductive Event where
  /-- `poll` returns; each flag is `POLLIN` of its socket. -/
  | poll (tcp udp : Bool)
  /-- The client's connection or datagram is served. -/
  | recv (client : SockaddrIn) (received : Option Delivery)
deriving DecidableEq

def afterUdp (s : Server) : Server := if s.buf.info = -1 then { s with pc := .stopped } else { s with pc := .head }

def afterTcp (s : Server) (udp : Bool) : Server :=
  if s.buf.info = -1 then { s with pc := .stopped } else if udp then { s with pc := .udp } else afterUdp s

/-- What was received is answered; one more than `INT_MAX` is undefined. -/
def serve (s : Server) (received : Option Delivery) (clientAddress : SockaddrIn) : Option Server :=
  let buf := recvInto s.buf received
  if buf.info = intMax then none
  else
    some { s with
      buf := buf
      sendbuf := buf.info + 1
      clientAddress := clientAddress
      replies := s.replies ++ [(clientAddress, buf.info + 1)] }

def step (s : Server) : Event → Option Server
  | .poll tcp udp =>
    match s.pc with
    | .head => some (if tcp then { s with pc := .tcp udp } else afterTcp s udp)
    | _ => none
  | .recv client received =>
    match s.pc with
    | .tcp udp => (serve s received client).map (afterTcp · udp)
    -- a `recvfrom` that fails leaves the address of the client before
    | .udp => (serve s received (if received = none then s.clientAddress else client)).map afterUdp
    | _ => none

/-- After the events `es`, `v` is sent back to `client`, from whom `received` came. -/
def SentBack (client : SockaddrIn) (received : Option Delivery) (es : List Event) (v : Int) : Prop :=
  ∃ s t dest, Run.run step start es = some s ∧ step s (.recv client received) = some t ∧
    t.replies = s.replies ++ [(dest, v)]

/-- What is sent back for `received` is the same after any two runs, and for a whole package it is the answer to its
`info`. -/
structure AnsweredAlone (received : Option Delivery) : Prop where
  same : ∀ client client' es es' v v', SentBack client received es v → SentBack client' received es' v' → v = v'
  own : ∀ client es v d p, SentBack client received es v → received = some d → d.bytes = p.bytes →
    v = CommPackage.info p + 1

/-- The whole package was delivered. -/
def Complete (received : Option Delivery) : Prop := ∃ d, received = some d ∧ d.bytes.length = commPackageSize

variable {s t : Server} {client : SockaddrIn} {received : Option Delivery} {es : List Event} {v : Int}

/-! ## One answer -/

@[simp] theorem afterUdp_replies (s : Server) : (afterUdp s).replies = s.replies := by
  unfold afterUdp
  split <;> rfl

@[simp] theorem afterTcp_replies (s : Server) (udp : Bool) : (afterTcp s udp).replies = s.replies := by
  unfold afterTcp
  split
  · rfl
  · split
    · rfl
    · exact afterUdp_replies s

theorem serve_replies {dest : SockaddrIn} (hs : serve s received dest = some t) :
    t.replies = s.replies ++ [(dest, (recvInto s.buf received).info + 1)] := by
  simp only [serve] at hs
  split at hs
  · cases hs
  · obtain rfl := Option.some.inj hs
    rfl

theorem recv_replies (hs : step s (.recv client received) = some t) :
    ∃ dest, t.replies = s.replies ++ [(dest, (recvInto s.buf received).info + 1)] := by
  simp only [step] at hs
  split at hs
  · obtain ⟨m, hm, rfl⟩ := Option.map_eq_some_iff.1 hs
    exact ⟨_, by rw [afterTcp_replies, serve_replies hm]⟩
  · obtain ⟨m, hm, rfl⟩ := Option.map_eq_some_iff.1 hs
    exact ⟨_, by rw [afterUdp_replies, serve_replies hm]⟩
  · cases hs

/-- The value sent back is read off the buffer the delivery left. -/
theorem SentBack.eq (h : SentBack client received es v) :
    ∃ s, Run.run step start es = some s ∧ v = (recvInto s.buf received).info + 1 := by
  obtain ⟨s, t, dest, hrun, hs, hsent⟩ := h
  refine ⟨s, hrun, ?_⟩
  obtain ⟨dest', hreplies⟩ := recv_replies hs
  have hlast := List.append_cancel_left (hsent.symm.trans hreplies)
  simp at hlast
  exact hlast.2

theorem info_congr {p q : CommPackage} (h : p.bytes = q.bytes) : p.info = q.info := by
  unfold CommPackage.info
  rw [h]

theorem recvInto_of_complete {d : Delivery} (buf : CommPackage) (hd : d.bytes.length = commPackageSize) :
    (recvInto buf (some d)).bytes = d.bytes := by
  have hdrop : buf.bytes.drop d.bytes.length = [] := by
    apply List.drop_eq_nil_of_le
    rw [buf.size, hd]
  simp [recvInto, memcpy, hdrop]

theorem answeredAlone_of_complete (h : Complete received) : AnsweredAlone received := by
  obtain ⟨d, rfl, hd⟩ := h
  constructor
  case same =>
    intro client client' es es' v v' hv hv'
    obtain ⟨s, -, hanswer⟩ := hv.eq
    obtain ⟨s', -, hanswer'⟩ := hv'.eq
    have hbytes := (recvInto_of_complete s.buf hd).trans (recvInto_of_complete s'.buf hd).symm
    rw [hanswer, hanswer', info_congr hbytes]
  case own =>
    intro client es v d' p hv hreceived hbytes
    obtain ⟨s, -, hanswer⟩ := hv.eq
    obtain rfl := Option.some.inj hreceived
    have hwhole := (recvInto_of_complete s.buf hd).trans hbytes
    rw [hanswer, info_congr hwhole]

/-! ## A delivery that leaves bytes of the buffer -/

/-- The package whose highest byte alone is set. -/
def high : Delivery := ⟨[0, 0, 0, 1], by decide, by decide⟩

/-- A connection is waiting, and nothing has been received. -/
def fresh : List Event := [.poll true false]

/-- A connection is waiting, and the client before sent `high`. -/
def stale : List Event := [.poll true false, .recv ⟨0, 0⟩ (some high), .poll true false]

theorem info_of_lt {p : CommPackage} (h : ofLeBytes p.bytes < 2 ^ 31) : p.info = ofLeBytes p.bytes := by
  unfold CommPackage.info
  exact Int.bmod_eq_of_le (by omega) (by omega)

/-- The bytes a delivery has; a `recv` that failed has none. -/
def delivered : Option Delivery → List Nat
  | none => []
  | some d => d.bytes

theorem recvInto_bytes (buf : CommPackage) (received : Option Delivery) :
    (recvInto buf received).bytes = delivered received ++ buf.bytes.drop (delivered received).length := by
  cases received with
  | none => rfl
  | some d => simp [recvInto, memcpy, delivered]

theorem delivered_lt (received : Option Delivery) :
    ofLeBytes (delivered received) < 256 ^ (delivered received).length := by
  apply ofLeBytes_lt
  cases received with
  | none => simp [delivered]
  | some d => exact d.byte

theorem length_delivered_lt (h : ¬ Complete received) : (delivered received).length < commPackageSize := by
  cases received with
  | none => decide
  | some d => exact Nat.lt_of_le_of_ne d.size fun hd => h ⟨d, rfl, hd⟩

/-- The bytes that stay in `buf` are answered together with those delivered. -/
theorem ofLeBytes_recvInto (buf : CommPackage) (received : Option Delivery) :
    ofLeBytes (recvInto buf received).bytes = ofLeBytes (delivered received) +
      256 ^ (delivered received).length * ofLeBytes (buf.bytes.drop (delivered received).length) := by
  rw [recvInto_bytes, ofLeBytes_append]

/-- With the highest byte alone left in `buf`, it is answered as well. -/
theorem stale_byte : ∀ k < commPackageSize, 256 ^ k * ofLeBytes ([0, 0, 0, 0].drop k) = 0 ∧
    256 ^ k * ofLeBytes ([0, 0, 0, 1].drop k) = 2 ^ 24 ∧ 256 ^ k ≤ 2 ^ 24 := by decide

theorem exists_sentBack {udp : Bool} (client : SockaddrIn) (hrun : Run.run step start es = some s)
    (hpc : s.pc = .tcp udp) (hmax : (recvInto s.buf received).info ≠ intMax) :
    SentBack client received es ((recvInto s.buf received).info + 1) := by
  let t := { s with
    buf := recvInto s.buf received
    sendbuf := (recvInto s.buf received).info + 1
    clientAddress := client
    replies := s.replies ++ [(client, (recvInto s.buf received).info + 1)] }
  refine ⟨s, afterTcp t udp, client, hrun, ?_, ?_⟩
  · simp only [step, hpc, serve, if_neg hmax]
    rfl
  · apply afterTcp_replies

theorem sentBack_of_rest {udp : Bool} {rest : Nat} (client : SockaddrIn) (hrun : Run.run step start es = some s)
    (hpc : s.pc = .tcp udp)
    (hrest : 256 ^ (delivered received).length * ofLeBytes (s.buf.bytes.drop (delivered received).length) = rest)
    (hlt : ofLeBytes (delivered received) + rest < 2 ^ 31 - 1) :
    SentBack client received es ((ofLeBytes (delivered received) + rest : Nat) + 1) := by
  have hbytes : ofLeBytes (recvInto s.buf received).bytes = ofLeBytes (delivered received) + rest := by
    rw [ofLeBytes_recvInto, hrest]
  have hinfo : (recvInto s.buf received).info = (ofLeBytes (delivered received) + rest : Nat) := by
    rw [info_of_lt (by omega), hbytes]
  have hmax : (recvInto s.buf received).info ≠ intMax := by
    rw [hinfo]
    unfold intMax
    omega
  rw [← hinfo]
  exact exists_sentBack client hrun hpc hmax

/-- **No client's answer holds another's bytes exactly when its whole package was delivered**: the source does not look
at what `recv` returns. -/
theorem answered_alone_iff (received : Option Delivery) : AnsweredAlone received ↔ Complete received := by
  refine ⟨fun halone => ?_, answeredAlone_of_complete⟩
  by_contra hpart
  obtain ⟨hzero, hone, hpow⟩ := stale_byte _ (length_delivered_lt hpart)
  have hlow := delivered_lt received
  have hfresh : SentBack ⟨1, 2⟩ received fresh ((ofLeBytes (delivered received) + 0 : Nat) + 1) :=
    sentBack_of_rest ⟨1, 2⟩ rfl rfl hzero (by omega)
  have hstale : SentBack ⟨1, 2⟩ received stale ((ofLeBytes (delivered received) + 2 ^ 24 : Nat) + 1) :=
    sentBack_of_rest ⟨1, 2⟩ rfl rfl hone (by omega)
  have hsame := halone.same _ _ _ _ _ _ hfresh hstale
  omega

/-- Nothing is delivered: the client closed its connection at once. -/
def nothing : Option Delivery := some ⟨[], by decide, nofun⟩

/-- Such a client is answered one more than the value of the client before. -/
theorem nothing_leaks : SentBack ⟨1, 2⟩ nothing fresh 1 ∧ SentBack ⟨1, 2⟩ nothing stale 16777217 ∧
    ¬ AnsweredAlone nothing := by
  have hfresh : SentBack ⟨1, 2⟩ nothing fresh ((0 + 0 : Nat) + 1) :=
    sentBack_of_rest ⟨1, 2⟩ rfl rfl (by decide) (by decide)
  have hstale : SentBack ⟨1, 2⟩ nothing stale ((0 + 16777216 : Nat) + 1) :=
    sentBack_of_rest ⟨1, 2⟩ rfl rfl (by decide) (by decide)
  refine ⟨hfresh, hstale, fun halone => ?_⟩
  have hsame := halone.same _ _ _ _ _ _ hfresh hstale
  omega

end SelectingServer
end Eltex
