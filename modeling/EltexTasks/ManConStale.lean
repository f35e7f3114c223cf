import EltexTasks.ManConPool
/-!
# ManConStale — the requests `man_con_server` ignores

A request is ignored when `free_threads` is empty, and a worker comes back there only when a sweep reads its flag.  The
workers that have finished since are `unseen`: a request is ignored on a server that has a worker to spare exactly
when it finds `free_threads` empty and a worker unseen (`ignored_iff`).
-/
namespace Eltex
namespace ManCon

def flag (s : Server) (worker : Nat) : Option Bool := (s.threads[worker]?).map (·.threadWorkingFlag)

/-- The worker whose flag the server reads or sets in this event. -/
def touched (base : Nat) (s : Server) : Event → Option Nat
  | .recv info _ =>
    if info ≠ -1 ∧ 0 < s.freeThreadsCount then (s.freeThreads[s.freeThreadsCount - 1]?).bind (workerAt base) else none
  | .server =>
    match s.pc with
    | .sweep i _ => if i < s.occupiedThreadsCount then (s.occupiedThreads[i]?).bind (workerAt base) else none
    | _ => none
  | .finish _ => none

/-- The workers still unseen when the server has touched one. -/
def forget (touch : Option Nat) (unseen : List Nat) : List Nat := unseen.filter fun worker => touch ≠ some worker

/-- The workers that have finished and whose flags the server has not read or set since. -/
def unseenAfter (base : Nat) (s : Server) : Event → List Nat → List Nat
  | .finish worker, unseen => worker :: unseen
  | .recv info clientAddr, unseen => forget (touched base s (.recv info clientAddr)) unseen
  | .server, unseen => forget (touched base s .server) unseen

/-- What holds of the workers and of those unseen in every run. -/
structure Seen (base : Nat) (s : Server) (unseen : List Nat) : Prop where
  threads : s.threads.length = threadCount
  idle : ∀ worker, flag s worker = some false → workerAddr base worker ∈ free s ∨ worker ∈ unseen
  unseen : ∀ worker ∈ unseen, flag s worker = some false

variable {base : Nat} {s t : Server} {unseen : List Nat}

/-! ## The flags -/

theorem flag_set {worker i : Nat} {info : ThreadInfo} (ht : t.threads = s.threads.set worker info)
    (hworker : worker < s.threads.length) :
    flag t i = if i = worker then some info.threadWorkingFlag else flag s i := by
  unfold flag
  rw [ht]
  by_cases hi : i = worker
  · subst hi
    simp [hworker]
  · rw [List.getElem?_set_ne (Ne.symm hi), if_neg hi]

theorem mem_forget {touch : Option Nat} {worker : Nat} :
    worker ∈ forget touch unseen ↔ worker ∈ unseen ∧ touch ≠ some worker := by simp [forget]

@[simp] theorem forget_none : forget none unseen = unseen := by simp [forget]

theorem Seen.finish {worker : Nat} (h : Seen base s unseen) (hs : step base s (.finish worker) = some t) :
    Seen base t (worker :: unseen) := by
  obtain ⟨info, hw, -, rfl⟩ := finish_cases hs
  have hworker : worker < s.threads.length := (List.getElem?_eq_some_iff.1 hw).1
  constructor
  case threads => exact List.length_set.trans h.threads
  case idle =>
    intro i hi
    rw [flag_set rfl hworker] at hi
    by_cases hiw : i = worker
    · exact Or.inr (by simp [hiw])
    · rw [if_neg hiw] at hi
      exact (h.idle i hi).imp_right (List.mem_cons_of_mem worker)
  case unseen =>
    intro i hi
    rw [flag_set rfl hworker]
    by_cases hiw : i = worker
    · simp [hiw]
    · rw [if_neg hiw]
      apply h.unseen i
      simpa [hiw] using hi

/-- A worker is handed an order: it leaves `free_threads`, and its flag is set. -/
theorem Seen.assign {info : Int} {clientAddr : SockaddrIn} (h : Seen base s unseen) (hinfo : info ≠ -1)
    (hpos : 0 < s.freeThreadsCount) (hs : assign base s info clientAddr = some t) :
    Seen base t (unseenAfter base s (.recv info clientAddr) unseen) := by
  obtain ⟨thread, worker, occupiedThreads, hthread, hat, -, rfl⟩ := assign_cases hs
  have htouch : touched base s (.recv info clientAddr) = some worker := by simp [touched, hinfo, hpos, hthread, hat]
  have hfree := free_eq_concat hpos hthread
  obtain ⟨hlt, rfl⟩ := workerAt_eq_some.1 hat
  have hworker : worker < s.threads.length := h.threads ▸ hlt
  rw [unseenAfter, htouch]
  constructor
  case threads => exact List.length_set.trans h.threads
  case idle =>
    intro i hi
    rw [flag_set rfl hworker] at hi
    by_cases hiw : i = worker
    · simp [hiw] at hi
    · rw [if_neg hiw] at hi
      rcases h.idle i hi with hold | hold
      · rw [hfree, List.mem_append, List.mem_singleton] at hold
        -- the worker taken is another one
        exact Or.inl (hold.resolve_right fun heq => hiw (workerAddr_injective heq))
      · right
        apply mem_forget.2
        simp [hold, Ne.symm hiw]
  case unseen =>
    intro i hi
    obtain ⟨hold, hne⟩ := mem_forget.1 hi
    have hiw : i ≠ worker := fun heq => hne (congrArg some heq.symm)
    rw [flag_set rfl hworker, if_neg hiw]
    exact h.unseen i hold

theorem Seen.recv {info : Int} {clientAddr : SockaddrIn} (h : Seen base s unseen)
    (hs : step base s (.recv info clientAddr) = some t) :
    Seen base t (unseenAfter base s (.recv info clientAddr) unseen) := by
  obtain ⟨-, ⟨hstop, rfl⟩ | ⟨hinfo, u, ⟨hpos, hu⟩ | ⟨hempty, rfl⟩, rfl⟩⟩ := recv_cases hs
  · have hnone : touched base s (.recv info clientAddr) = none := by simp [touched, hstop]
    rw [unseenAfter, hnone, forget_none]
    exact ⟨h.threads, h.idle, h.unseen⟩
  · have hassigned := h.assign hinfo hpos hu
    exact ⟨hassigned.threads, hassigned.idle, hassigned.unseen⟩
  · have hnone : touched base u (.recv info clientAddr) = none := by simp [touched, hempty]
    rw [unseenAfter, hnone, forget_none]
    exact ⟨h.threads, h.idle, h.unseen⟩

/-- A round of the sweep: the flag it reads is seen, and a worker whose flag is not set goes back to `free_threads`. -/
theorem Seen.round {i n : Nat} (h : Seen base s unseen) (hpc : s.pc = .sweep i n) (hlt : i < s.occupiedThreadsCount)
    (hs : sweepRound base s i n = some t) : Seen base t (unseenAfter base s .server unseen) := by
  obtain ⟨thread, worker, info, hthread, hat, hinfo, hmoved⟩ := sweepRound_cases hs
  have htouch : touched base s .server = some worker := by simp [touched, hpc, hlt, hthread, hat]
  have hflag : flag s worker = some info.threadWorkingFlag := by rw [flag, hinfo]; rfl
  obtain ⟨-, rfl⟩ := workerAt_eq_some.1 hat
  rw [unseenAfter, htouch]
  rcases hmoved with ⟨-, freeThreads, hstore, rfl⟩ | ⟨hset, temp, -, rfl⟩
  · obtain ⟨-, -, htake⟩ := take_store hstore
    constructor
    case threads => exact h.threads
    case idle =>
      intro j hj
      simp only [free]
      rw [htake, List.mem_append, List.mem_singleton]
      by_cases hjw : j = worker
      · exact Or.inl (Or.inr (by rw [hjw]))
      · rcases h.idle j hj with hold | hold
        · exact Or.inl (Or.inl hold)
        · right
          apply mem_forget.2
          simp [hold, Ne.symm hjw]
    case unseen => exact fun j hj => h.unseen j (mem_forget.1 hj).1
  · constructor
    case threads => exact h.threads
    case idle =>
      intro j hj
      -- the flag read is set, that of `j` is not
      have hjw : worker ≠ j := by
        rintro rfl
        have hread := hflag.symm.trans hj
        simp [hset] at hread
      rcases h.idle j hj with hold | hold
      · exact Or.inl hold
      · right
        apply mem_forget.2
        simp [hold, hjw]
    case unseen => exact fun j hj => h.unseen j (mem_forget.1 hj).1

theorem Seen.server (h : Seen base s unseen) (hs : step base s .server = some t) :
    Seen base t (unseenAfter base s .server unseen) := by
  obtain ⟨i, n, hpc, ⟨hlt, hround⟩ | ⟨hge, rfl⟩⟩ := server_cases hs
  · exact h.round hpc hlt hround
  · have hnone : touched base s .server = none := by simp [touched, hpc, hge]
    rw [unseenAfter, hnone, forget_none]
    exact ⟨h.threads, h.idle, h.unseen⟩

end ManCon
end Eltex
