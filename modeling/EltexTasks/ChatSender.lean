import EltexTasks.ChatClient
import EltexTasks.ChatServer
/-!
# ChatSender — who a text of the queue chat comes from

A client frames its texts with its name and a colon; the server takes the name out again and looks for the client it
belongs to.  The copy it looks for has no NUL of its own, and it ends at the first colon.
-/
namespace Eltex
namespace MsgQueue

/-- The string in `username` of `chat_client`: '/' and the typed name.  It is also the name of the client's queue.
`none` where `strchr` finds no newline, or nothing has been typed. -/
def clientUsername (stdin : List Byte) : Option CString :=
  match fgets 100 stdin with
  | none => none
  | some (bs, _) =>
    match strchr (chr '/' :: cstr bs) newline with
    | none => none
    | some n => some ((chr '/' :: cstr bs).take n)

/-- A name that `fgets` stores whole and `mq_open` accepts behind a '/'. -/
structure ValidName (name : CString) : Prop where
  nonempty : name ≠ []
  length : name.length ≤ 98
  newline : newline ∉ name
  nul : 0 ∉ name
  slash : chr '/' ∉ name

instance (name : CString) : Decidable (ValidName name) :=
  decidable_of_iff (name ≠ [] ∧ name.length ≤ 98 ∧ Eltex.newline ∉ name ∧ 0 ∉ name ∧ chr '/' ∉ name)
    ⟨fun ⟨h₁, h₂, h₃, h₄, h₅⟩ => ⟨h₁, h₂, h₃, h₄, h₅⟩, fun ⟨h₁, h₂, h₃, h₄, h₅⟩ => ⟨h₁, h₂, h₃, h₄, h₅⟩⟩

theorem clientUsername_eq {name rest : List Byte} (h : ValidName name) :
    clientUsername (name ++ newline :: rest) = some (chr '/' :: name) := by
  have hlen := h.length
  have hself : cstr (name ++ [newline]) = name ++ [newline] := by
    refine cstr_eq_self fun hm => ?_
    rcases List.mem_append.1 hm with hm | hm
    · exact h.nul hm
    · exact absurd (List.mem_singleton.1 hm) (by decide)
  have hnl : newline ∉ chr '/' :: name := by
    rw [List.mem_cons]
    rintro (he | hm)
    · exact absurd he (by decide)
    · exact h.newline hm
  have hfind : strchr (chr '/' :: (name ++ [newline])) newline = some (chr '/' :: name).length :=
    strchr_append (s := []) hnl
  unfold clientUsername
  rw [fgets_line h.newline (by omega)]
  simp only [hself, hfind]
  rw [← List.cons_append, List.take_left]

/-- **The server registers a client under its own name** and opens the queue the client has created. -/
theorem connect_clientUsername {s t : Server} {name rest : List Byte} (h : ValidName name)
    (ht : connect s name = some t) :
    ∃ u, clientUsername (name ++ newline :: rest) = some u ∧ t.clients = s.clients ++ [⟨s.clients.length, name, u⟩] := by
  refine ⟨chr '/' :: name, clientUsername_eq h, ?_⟩
  have hlen := h.length
  unfold connect at ht
  split at ht
  · obtain rfl := Option.some.inj ht
    simp only
    rw [List.take_of_length_le (by omega)]
  · cases ht

/-! ## The sender's name -/

/-- The name taken out of a text, as the string that begins at its copy. -/
def senderName (m : Received) : Option CString :=
  (strchr m.buf (chr ':')).map fun nameLength => m.buf.take nameLength ++ m.tail

theorem senderOf_eq (s : Server) (m : Received) : senderOf s m = (senderName m).bind (findUserByName · s.clients) := by
  unfold senderOf senderName
  rw [Option.bind_map]; rfl

theorem findUserByName_of_mem : ∀ {clients : List ClientRec} {c : ClientRec},
    (clients.map ClientRec.username).Nodup → c ∈ clients → findUserByName c.username clients = some c
  | d :: clients, c, hnd, hc => by
    rw [List.map_cons, List.nodup_cons] at hnd
    unfold findUserByName
    rcases List.mem_cons.1 hc with rfl | hc
    · exact List.find?_cons_of_pos (beq_self_eq_true _)
    · have hne : d.username ≠ c.username := fun he => hnd.1 (he ▸ List.mem_map_of_mem hc)
      rw [List.find?_cons_of_neg (by simpa using hne)]
      exact findUserByName_of_mem hnd.2 hc

/-- What the server copies is the name up to its first colon. -/
theorem senderName_frame (prio : Nat) (name text tail : CString) :
    senderName ⟨prio, frame name text, tail⟩ = some (name.takeWhile (· != chr ':') ++ tail) := by
  have hno : chr ':' ∉ name.takeWhile (· != chr ':') := fun hm => by
    have := List.mem_takeWhile_imp hm
    simp at this
  obtain ⟨rest, hrest⟩ : ∃ rest, frame name text = name.takeWhile (· != chr ':') ++ chr ':' :: rest := by
    unfold frame
    cases hd : name.dropWhile (· != chr ':') with
    | nil =>
      refine ⟨text, ?_⟩
      have hsplit := List.takeWhile_append_dropWhile (p := (· != chr ':')) (l := name)
      rw [hd, List.append_nil] at hsplit
      rw [hsplit]
    | cons b q =>
      have hb : b = chr ':' := by
        have := List.head_dropWhile_not (· != chr ':') (l := name) (by rw [hd]; simp)
        simpa [hd] using this
      refine ⟨q ++ chr ':' :: text, ?_⟩
      conv_lhs => rw [← List.takeWhile_append_dropWhile (p := (· != chr ':')) (l := name), hd, hb]
      rw [List.append_assoc]; rfl
  unfold senderName
  simp only [hrest]
  rw [strchr_append hno, Option.map_some, List.take_left]

/-- **Exactly when a text is attributed to its sender**: the name taken out of it is the sender's, and the sender is
found, if and only if the memory behind the copy continues it with what the name has from its first colon on. -/
theorem sender_iff (s : Server) (c : ClientRec) (text tail : CString) (hnd : (s.clients.map ClientRec.username).Nodup)
    (hc : c ∈ s.clients) :
    (senderName ⟨1, frame c.username text, tail⟩ = some c.username ∧
      senderOf s ⟨1, frame c.username text, tail⟩ = some c) ↔ tail = c.username.dropWhile (· != chr ':') := by
  have hsplit := List.takeWhile_append_dropWhile (p := (· != chr ':')) (l := c.username)
  rw [senderOf_eq, senderName_frame, Option.bind_some]
  constructor
  · rintro ⟨hname, -⟩
    have hname := Option.some.inj hname
    conv_rhs at hname => rw [← hsplit]
    exact List.append_cancel_left hname
  · rintro rfl
    rw [hsplit]
    exact ⟨rfl, findUserByName_of_mem hnd hc⟩

/-- Three clients, one with a colon in its name. -/
def threeClients : Server :=
  let client (i : Nat) (name : CString) : ClientRec := ⟨i, name, chr '/' :: name⟩
  { (chatServer 10).get rfl with
    clients := [client 0 (str ['a']), client 1 (str ['a', ':', 'b']), client 2 (str ['b', 'o', 'b'])] }

/-- Behind the copy of "bob" the memory happens to begin with a NUL. -/
theorem sender_bob :
    senderName ⟨1, frame (str ['b', 'o', 'b']) (str ['h', 'i']), []⟩ = some (str ['b', 'o', 'b']) ∧
      senderOf threeClients ⟨1, frame (str ['b', 'o', 'b']) (str ['h', 'i']), []⟩ =
        some ⟨2, str ['b', 'o', 'b'], str ['/', 'b', 'o', 'b']⟩ :=
  (sender_iff threeClients ⟨2, str ['b', 'o', 'b'], str ['/', 'b', 'o', 'b']⟩ (str ['h', 'i']) [] (by decide)
    (by decide)).2 (by decide)

/-- The text of "a:b" is attributed to "a"; with an `x` in the memory behind its copy, "bob" is found to be nobody. -/
theorem sender_wrong :
    (∀ c ∈ threeClients.clients, ValidName c.username) ∧ (threeClients.clients.map ClientRec.username).Nodup ∧
    senderOf threeClients ⟨1, frame (str ['a', ':', 'b']) (str ['h', 'i']), []⟩ =
      some ⟨0, str ['a'], str ['/', 'a']⟩ ∧
    senderOf threeClients ⟨1, frame (str ['b', 'o', 'b']) (str ['h', 'i']), str ['x']⟩ = none := by
  decide

end MsgQueue
end Eltex
