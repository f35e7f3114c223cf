import EltexTasks.ShmSteps
/-!
# ShmPermit — the semaphore permit of the shared-memory chat

The same sections, entered by `sem_wait` and left by `sem_post` as steps of their own, with any number of clients and
any interleaving.  A section's accesses to the block are one step: up to the first step that breaks the conservation
law nobody else is inside, so no other access can fall between them.
-/
namespace Eltex
namespace Shm

open Run (run Always Steps)
open MsgQueue (inputRoutine)

/-- Where the server stands: at its `sem_wait`, past it, at its `sem_post`, or out of its loop. -/
inductive ServerPc where
  | waiting
  | inside
  | posting
  | left
deriving DecidableEq, Repr

/-- Where a client stands; the join section ends with two `sem_post`, the second one at `joinPosted`. -/
inductive ClientPc where
  | joining
  | joinInside
  | joinPosting
  | joinPosted
  | waiting
  | inside
  | posting
  | left
deriving DecidableEq, Repr

structure Proc where
  pc : ClientPc
  client : Client
deriving DecidableEq, Repr

structure Sys where
  shm : ShmChat
  server : ServerPc
  procs : List Proc
deriving DecidableEq, Repr

inductive Move where
  | server
  | client (i : Nat)
  | typed (i : Nat) (stdin : List Byte)
deriving DecidableEq, Repr

/-- The server after its `sem_init`, and `n` clients that have started their input threads. -/
def start (n : Nat) : Sys :=
  { shm := shmInit, server := .waiting, procs := List.replicate n ⟨.joining, startClient none⟩ }

/-- `sem_wait`, where the value lets it through. -/
def semWait (m : ShmChat) : Option ShmChat := if m.sem = 0 then none else some { m with sem := m.sem - 1 }

def semPost (m : ShmChat) : ShmChat := { m with sem := m.sem + 1 }

def serverMove (s : Sys) : Option Sys :=
  match s.server with
  | .waiting => (semWait s.shm).map fun m => { s with shm := m, server := .inside }
  | .inside =>
    some { s with
      shm := (serverSection s.shm).1
      server := if (serverSection s.shm).2 = .post then .posting else .left }
  | .posting => some { s with shm := semPost s.shm, server := .waiting }
  | .left => none

/-- The next step of one client, on the block and its own state. -/
def procMove (m : ShmChat) (p : Proc) : Option (ShmChat × Proc) :=
  match p.pc with
  | .joining => (semWait m).map fun m => (m, { p with pc := .joinInside })
  | .joinInside =>
    some ((clientJoin m).1, ⟨.joinPosting, { p.client with clientId := (clientJoin m).2 }⟩)
  | .joinPosting => some (semPost m, { p with pc := .joinPosted })
  | .joinPosted => some (semPost m, { p with pc := .waiting })
  | .waiting => (semWait m).map fun m => (m, { p with pc := .inside })
  | .inside =>
    match clientSection m p.client with
    | none => none
    | some (m, c, _, a) => some (m, ⟨if a = .post then .posting else .left, c⟩)
  | .posting => some (semPost m, { p with pc := .waiting })
  | .left => none

def clientMove (s : Sys) (i : Nat) : Option Sys :=
  match s.procs[i]? with
  | none => none
  | some p => (procMove s.shm p).map fun (m, p') => { s with shm := m, procs := s.procs.set i p' }

/-- A turn of the input thread of a running client; its crash ends the process wherever the main thread stands. -/
def typedMove (s : Sys) (i : Nat) (stdin : List Byte) : Option Sys :=
  match s.procs[i]? with
  | none => none
  | some p =>
    if p.pc ≠ .left ∧ p.client.flag = true then
      let pc := if inputRoutine messageMax stdin = none then .left else p.pc
      some { s with procs := s.procs.set i ⟨pc, clientTypes p.client stdin⟩ }
    else none

def move (s : Sys) : Move → Option Sys
  | .server => serverMove s
  | .client i => clientMove s i
  | .typed i stdin => typedMove s i stdin

/-- Between a completed `sem_wait` and the `sem_post` that follows it. -/
def ServerPc.holds : ServerPc → Bool
  | .inside | .posting => true
  | _ => false

def ClientPc.holds : ClientPc → Bool
  | .joinInside | .joinPosting | .inside | .posting => true
  | _ => false

/-- The running processes that hold the permit. -/
def Sys.holders (s : Sys) : Nat := s.server.holds.toNat + s.procs.countP (·.pc.holds)

/-- **The permit is conserved**, and at most one process is inside. -/
def PermitConserved (s : Sys) : Prop := s.shm.sem + s.holders = 1 ∧ s.holders ≤ 1

/-- The server is about to read a closing message, or a join request that overfills the table. -/
def serverLeaves (m : ShmChat) : Prop :=
  serverTakes m = true ∧ (closes m.msgBuf = true ∨ (m.msgBuf = newText ∧ clientMax ≤ m.clientCount))

/-- The client is about to read a closing message, the one it has typed itself included. -/
def clientLeaves (m : ShmChat) (c : Client) : Prop :=
  (clientWrite m c).1.clientStatus[c.clientId]? = some false ∧ (clientWrite m c).1.messageNew = true ∧
    closes (clientWrite m c).1.msgBuf = true

/-- The step is no second `sem_post` of a join section, no way out of a section without its `sem_post`, and no crash
inside one. -/
def keepsPermit (s : Sys) : Move → Prop
  | .server => s.server = .inside → ¬ serverLeaves s.shm
  | .client i => ∀ p ∈ s.procs[i]?, p.pc ≠ .joinPosted ∧ (p.pc = .inside → ¬ clientLeaves s.shm p.client)
  | .typed i stdin => ∀ p ∈ s.procs[i]?, inputRoutine messageMax stdin = none → p.pc.holds = false

instance (m : ShmChat) : Decidable (serverLeaves m) := inferInstanceAs (Decidable (_ ∧ _))

instance (m : ShmChat) (c : Client) : Decidable (clientLeaves m c) := inferInstanceAs (Decidable (_ ∧ _))

instance (s : Sys) (e : Move) : Decidable (keepsPermit s e) := by
  cases e <;> unfold keepsPermit <;> infer_instance

/-! ## What the moves do to the permit -/

theorem serverReset_sem (m : ShmChat) : (serverReset m).sem = m.sem := by
  rcases serverReset_cases m with ⟨-, e⟩ | ⟨-, e⟩ <;> rw [e]

theorem serverSection_sem (m : ShmChat) : (serverSection m).1.sem = m.sem := by
  rcases serverSection_cases m with ⟨-, e⟩ | ⟨-, -, e⟩ | ⟨-, -, -, e⟩ | ⟨-, -, -, e⟩ | ⟨-, -, -, e⟩ <;>
    simp [e, serverReset_sem, markRead]

theorem serverSection_post_iff (m : ShmChat) : (serverSection m).2 = .post ↔ ¬ serverLeaves m := by
  unfold serverLeaves
  rcases serverSection_cases m with ⟨ht, e⟩ | ⟨ht, hc, e⟩ | ⟨ht, hn, hm, e⟩ | ⟨ht, hn, hm, e⟩ | ⟨ht, hn, hc, e⟩
  · simp [e, ht]
  · simp [e, ht, hc]
  · simp [e, ht, hn, hm]
  · simp [e, ht, hn, closes_newText, Nat.not_le.2 hm]
  · simp [e, ht, hn, hc]

theorem clientJoin_sem (m : ShmChat) : (clientJoin m).1.sem = m.sem := by
  unfold clientJoin; split <;> rfl

theorem clientWrite_sem (m : ShmChat) (c : Client) : (clientWrite m c).1.sem = m.sem := by
  rw [clientWrite_shm]; split <;> rfl

theorem clientSection_cases {m m' : ShmChat} {c c' : Client} {took : Option CString} {a : After}
    (h : clientSection m c = some (m', c', took, a)) :
    m'.sem = m.sem ∧ (a = .post ↔ ¬ clientLeaves m c) := by
  unfold clientSection clientRead at h
  simp only [clientWrite_clientId] at h
  rw [← clientWrite_sem m c]
  unfold clientLeaves
  cases hst : (clientWrite m c).1.clientStatus[c.clientId]? with
  | none => simp [hst] at h
  | some b =>
    cases b with
    | true =>
      simp only [hst, Option.some.injEq, Prod.mk.injEq] at h
      obtain ⟨rfl, -, -, rfl⟩ := h
      simp
    | false =>
      cases hn : (clientWrite m c).1.messageNew with
      | false =>
        simp only [hst, hn, Bool.false_eq_true, if_false, Option.some.injEq, Prod.mk.injEq] at h
        obtain ⟨rfl, -, -, rfl⟩ := h
        simp
      | true =>
        simp only [hst, hn, if_true, Option.some.injEq, Prod.mk.injEq] at h
        obtain ⟨rfl, -, -, rfl⟩ := h
        refine ⟨rfl, ?_⟩
        cases closes (clientWrite m c).1.msgBuf <;> simp

theorem semWait_eq_some {m m' : ShmChat} (h : semWait m = some m') : m.sem = m'.sem + 1 := by
  unfold semWait at h
  split at h
  · cases h
  · obtain rfl := Option.some.inj h
    show m.sem = m.sem - 1 + 1
    omega

/-- One process swapped for another: the holders change by these two alone. -/
theorem countP_holds_set {ps : List Proc} {i : Nat} {p : Proc} (hp : ps[i]? = some p) (p' : Proc) :
    (ps.set i p').countP (·.pc.holds) + p.pc.holds.toNat = ps.countP (·.pc.holds) + p'.pc.holds.toNat := by
  obtain ⟨hi, rfl⟩ := List.getElem?_eq_some_iff.1 hp
  rw [List.countP_set hi]
  have hle : (if ps[i].pc.holds = true then 1 else 0) ≤ ps.countP (·.pc.holds) :=
    List.boole_getElem_le_countP (p := fun q : Proc => q.pc.holds) hi
  generalize ps.countP (·.pc.holds) = n at hle ⊢
  cases hb : ps[i].pc.holds with
  | false => cases hb' : p'.pc.holds <;> simp
  | true =>
    rw [hb, if_pos rfl] at hle
    cases hb' : p'.pc.holds <;> simp only [Bool.toNat_true, Bool.toNat_false, if_true, Bool.false_eq_true, if_false] <;>
      omega

/-- **The balance of one client step**: a step that keeps the permit moves it between the semaphore and the process, a
second post adds one, an exit without its post takes one away. -/
theorem procMove_balance {m m' : ShmChat} {p p' : Proc} (h : procMove m p = some (m', p')) :
    (p.pc ≠ .joinPosted ∧ (p.pc = .inside → ¬ clientLeaves m p.client) ∧
      m'.sem + p'.pc.holds.toNat = m.sem + p.pc.holds.toNat) ∨
    (p.pc = .joinPosted ∧ m'.sem + p'.pc.holds.toNat = m.sem + p.pc.holds.toNat + 1) ∨
    (p.pc = .inside ∧ clientLeaves m p.client ∧ m'.sem + p'.pc.holds.toNat + 1 = m.sem + p.pc.holds.toNat) := by
  obtain ⟨pc, c⟩ := p
  cases pc with
  | joining =>
    obtain ⟨m₁, hw, he⟩ := Option.map_eq_some_iff.1 h
    obtain ⟨rfl, rfl⟩ := Prod.mk.inj he
    refine .inl ⟨nofun, nofun, ?_⟩
    simp [ClientPc.holds, semWait_eq_some hw]
  | joinInside =>
    obtain ⟨rfl, rfl⟩ := Prod.mk.inj (Option.some.inj h)
    refine .inl ⟨nofun, nofun, ?_⟩
    simp [ClientPc.holds, clientJoin_sem]
  | joinPosting =>
    obtain ⟨rfl, rfl⟩ := Prod.mk.inj (Option.some.inj h)
    exact .inl ⟨nofun, nofun, rfl⟩
  | joinPosted =>
    obtain ⟨rfl, rfl⟩ := Prod.mk.inj (Option.some.inj h)
    exact .inr (.inl ⟨rfl, rfl⟩)
  | waiting =>
    obtain ⟨m₁, hw, he⟩ := Option.map_eq_some_iff.1 h
    obtain ⟨rfl, rfl⟩ := Prod.mk.inj he
    refine .inl ⟨nofun, nofun, ?_⟩
    simp [ClientPc.holds, semWait_eq_some hw]
  | inside =>
    cases hsec : clientSection m c with
    | none => simp [procMove, hsec] at h
    | some r =>
      obtain ⟨m₁, c₁, took, a⟩ := r
      simp only [procMove, hsec, Option.some.injEq, Prod.mk.injEq] at h
      obtain ⟨rfl, rfl⟩ := h
      obtain ⟨hsem, hpost⟩ := clientSection_cases hsec
      by_cases ha : a = .post
      · exact .inl ⟨nofun, fun _ => hpost.1 ha, by simp [ClientPc.holds, ha, hsem]⟩
      · exact .inr (.inr ⟨rfl, Classical.not_not.1 fun hl => ha (hpost.2 hl), by simp [ClientPc.holds, ha, hsem]⟩)
  | posting =>
    obtain ⟨rfl, rfl⟩ := Prod.mk.inj (Option.some.inj h)
    exact .inl ⟨nofun, nofun, rfl⟩
  | left => cases h

/-- The balance of a step of the whole chat. -/
theorem move_balance {s t : Sys} {e : Move} (h : move s e = some t) :
    (keepsPermit s e ∧ t.shm.sem + t.holders = s.shm.sem + s.holders) ∨
    (¬ keepsPermit s e ∧ t.shm.sem + t.holders = s.shm.sem + s.holders + 1) ∨
    (¬ keepsPermit s e ∧ t.shm.sem + t.holders + 1 = s.shm.sem + s.holders) := by
  cases e with
  | server =>
    obtain ⟨m, pc, ps⟩ := s
    cases pc with
    | waiting =>
      obtain ⟨m₁, hw, rfl⟩ := Option.map_eq_some_iff.1 h
      refine .inl ⟨nofun, ?_⟩
      have : m.sem = m₁.sem + 1 := semWait_eq_some hw
      simp only [Sys.holders, ServerPc.holds, Bool.toNat_true, Bool.toNat_false]
      omega
    | inside =>
      obtain rfl := Option.some.inj h
      have hsem := serverSection_sem m
      by_cases hl : serverLeaves m
      · have ha : (serverSection m).2 ≠ .post := fun ha => (serverSection_post_iff m).1 ha hl
        refine .inr (.inr ⟨fun hk => hk rfl hl, ?_⟩)
        simp only [Sys.holders, ha, if_false, ServerPc.holds, Bool.toNat_true, Bool.toNat_false]
        omega
      · have ha : (serverSection m).2 = .post := (serverSection_post_iff m).2 hl
        refine .inl ⟨fun _ => hl, ?_⟩
        simp only [Sys.holders, ha, if_true, ServerPc.holds, Bool.toNat_true]
        omega
    | posting =>
      obtain rfl := Option.some.inj h
      refine .inl ⟨nofun, ?_⟩
      simp only [Sys.holders, semPost, ServerPc.holds, Bool.toNat_true, Bool.toNat_false]
      omega
    | left => cases h
  | client i =>
    simp only [move, clientMove] at h
    cases hp : s.procs[i]? with
    | none => rw [hp] at h; cases h
    | some p =>
      rw [hp] at h
      obtain ⟨⟨m', p'⟩, hm, rfl⟩ := Option.map_eq_some_iff.1 h
      have hset := countP_holds_set hp p'
      have hkeep : keepsPermit s (.client i) ↔
          p.pc ≠ .joinPosted ∧ (p.pc = .inside → ¬ clientLeaves s.shm p.client) := by
        simp [keepsPermit, hp]
      simp only [Sys.holders, hkeep]
      rcases procMove_balance hm with ⟨hn, hl, hb⟩ | ⟨hj, hb⟩ | ⟨hi, hl, hb⟩
      · exact .inl ⟨⟨hn, hl⟩, by omega⟩
      · exact .inr (.inl ⟨fun hk => hk.1 hj, by omega⟩)
      · exact .inr (.inr ⟨fun hk => hk.2 hi hl, by omega⟩)
  | typed i stdin =>
    simp only [move, typedMove] at h
    cases hp : s.procs[i]? with
    | none => rw [hp] at h; cases h
    | some p =>
      rw [hp] at h
      simp only at h
      split at h
      case isFalse => cases h
      case isTrue =>
      obtain rfl := Option.some.inj h
      have hset := countP_holds_set hp ⟨if inputRoutine messageMax stdin = none then .left else p.pc,
        clientTypes p.client stdin⟩
      dsimp only at hset
      have hkeep : keepsPermit s (.typed i stdin) ↔ (inputRoutine messageMax stdin = none → p.pc.holds = false) := by
        simp [keepsPermit, hp]
      simp only [Sys.holders, hkeep]
      by_cases hc : inputRoutine messageMax stdin = none
      · rw [if_pos hc] at hset ⊢
        have hleft : ClientPc.left.holds.toNat = 0 := rfl
        cases hh : p.pc.holds with
        | false =>
          have : p.pc.holds.toNat = 0 := by rw [hh]; rfl
          exact .inl ⟨fun _ => rfl, by omega⟩
        | true =>
          have : p.pc.holds.toNat = 1 := by rw [hh]; rfl
          exact .inr (.inr ⟨fun hk => (by cases hk hc), by omega⟩)
      · rw [if_neg hc] at hset ⊢
        exact .inl ⟨fun hn => absurd hn hc, by omega⟩

theorem permitConserved_start (n : Nat) : PermitConserved (start n) := by
  have : (start n).holders = 0 := by simp [Sys.holders, start, ServerPc.holds, ClientPc.holds]
  exact ⟨by rw [this]; rfl, by omega⟩

/-- **Along a run the permit is conserved exactly when no join section posts a second time, nobody leaves a section
without its `sem_post` and no client crashes inside one.** -/
theorem permit_conserved_iff (n : Nat) (es : List Move) (s : Sys) (hrun : run move (start n) es = some s) :
    Always move PermitConserved (start n) es ↔ Steps move keepsPermit (start n) es := by
  refine Run.always_iff_steps PermitConserved (fun s e t h hok hs => ?_) (fun _ h => h)
    (fun s e t h hok hs hP => ?_) (permitConserved_start n) hrun
  · have := h.1
    rcases move_balance hs with ⟨-, hb⟩ | ⟨hk, -⟩ | ⟨hk, -⟩
    · exact ⟨by omega, by omega⟩
    · exact absurd hok hk
    · exact absurd hok hk
  · have := h.1
    have := hP.1
    rcases move_balance hs with ⟨hk, -⟩ | ⟨-, hb⟩ | ⟨-, hb⟩
    · exact hok hk
    · omega
    · omega

/-- A round of the server, then a client's join section up to its first `sem_post`. -/
theorem permit_conserved_of_first_post :
    Always move PermitConserved (start 1) [.server, .server, .server, .client 0, .client 0, .client 0, .server] :=
  (permit_conserved_iff 1 _ _ rfl).2 (by decide)

/-- One client joins: its second `sem_post` leaves two permits. -/
theorem second_post_adds_permit : ¬ ∀ n es s, run move (start n) es = some s → PermitConserved s := by
  intro h
  have := (h 1 [.client 0, .client 0, .client 0, .client 0] _ rfl).1
  revert this
  decide

end Shm
end Eltex
