import EltexTasks.ManConPool
import EltexTasks.Update
/-!
# ManConOrders — what becomes of an order

Nothing is locked between `man_con_server` and its workers.  Here every access to what they share is a step of its own:
the flag a worker tests, the two halves of `arg->order.info += a`, the `sendto`, the `thread_working_flag = 0`, and the
three writes of a hand-over; the sweeps are those of `step`.  What such a run does to the two lists of workers is what a
run of `step` does (`Machine.asServer`), so where every sweep copies back what it found a worker that is handed an order
is back at its test: each order is answered once, as its own, to its own sender (`orders_conserved`).
-/
namespace Eltex
namespace ManCon

open Run (run)

/-- Where a worker is in the loop of `thread_routine`: at the test of its flag, in the busy loop, between reading and
writing `order.info`, before the `sendto`, and before `thread_working_flag = 0`. -/
inductive Stage where
  | waiting
  | working
  | adding (info : Int)
  | sending
  | clearing
deriving DecidableEq, Repr

/-- The writes of a hand-over, in their order. -/
inductive Write where
  | order
  | clientAddr
  | flag
deriving DecidableEq, Repr

/-- The order that is being handed to the worker at `thread`, and the write that comes next. -/
structure Handing where
  thread : Nat
  worker : Nat
  info : Int
  clientAddr : SockaddrIn
  job : Nat
  next : Write
deriving DecidableEq, Repr

/-- The server and its workers, where each of them is. -/
structure Machine where
  server : Server
  stages : List Stage
  hand : Option Handing
deriving DecidableEq, Repr

/-- A request is received; the server goes on with a hand-over or a sweep; worker `i` makes its next access. -/
inductive Access where
  | recv (info : Int) (clientAddr : SockaddrIn)
  | server
  | worker (i : Nat)
deriving DecidableEq, Repr

def startMachine (base : Nat) : Machine where
  server := start base
  stages := List.replicate threadCount .waiting
  hand := none

def beginSweep (s : Server) : Server :=
  { s with pc := .sweep 0 0, temp := callocTemp s.occupiedThreadsCount, found := [] }

/-- From `recvfrom` to the choice of a worker. -/
def recvAccess (base : Nat) (m : Machine) (info : Int) (clientAddr : SockaddrIn) : Option Machine :=
  if m.hand = none ∧ m.server.pc = .head then
    if info = -1 then some { m with server := { m.server with pc := .stopped } }
    else if 0 < m.server.freeThreadsCount then do
      let thread ← m.server.freeThreads[m.server.freeThreadsCount - 1]?
      let worker ← workerAt base thread
      some { m with
        server := { m.server with
          freeThreadsCount := m.server.freeThreadsCount - 1
          accepted := m.server.accepted ++ [(info, clientAddr)] }
        hand := some ⟨thread, worker, info, clientAddr, m.server.accepted.length, .order⟩ }
    else some { m with server := beginSweep m.server }
  else none

/-- The next write of a hand-over; behind the last the worker is occupied and the sweep begins. -/
def handAccess (m : Machine) (h : Handing) : Option Machine := do
  let old ← m.server.threads[h.worker]?
  match h.next with
  | .order =>
    some { m with
      server := { m.server with threads := m.server.threads.set h.worker { old with order := h.info, job := h.job } }
      hand := some { h with next := .clientAddr } }
  | .clientAddr =>
    some { m with
      server := { m.server with threads := m.server.threads.set h.worker { old with clientAddr := h.clientAddr } }
      hand := some { h with next := .flag } }
  | .flag =>
    let occupiedThreads ← store m.server.occupiedThreads m.server.occupiedThreadsCount h.thread
    some { m with
      server := beginSweep { m.server with
        threads := m.server.threads.set h.worker { old with threadWorkingFlag := true }
        occupiedThreads := occupiedThreads
        occupiedThreadsCount := m.server.occupiedThreadsCount + 1 }
      hand := none }

/-- The next access of a worker: its fields and its stage behind it, and what it sends. -/
def routineAccess (info : ThreadInfo) : Stage → ThreadInfo × Stage × List (Nat × Int × SockaddrIn)
  | .waiting => (info, if info.threadWorkingFlag then .working else .waiting, [])
  | .working => (info, .adding info.order, [])
  | .adding order => ({ info with order := answer order }, .sending, [])
  | .sending => (info, .clearing, [(info.job, info.order, info.clientAddr)])
  | .clearing => ({ info with threadWorkingFlag := false }, .waiting, [])

def workerAccess (m : Machine) (i : Nat) : Option Machine :=
  if m.server.pc = .stopped then none
  else do
    let info ← m.server.threads[i]?
    let stage ← m.stages[i]?
    some { m with
      server := { m.server with
        threads := m.server.threads.set i (routineAccess info stage).1
        replies := m.server.replies ++ (routineAccess info stage).2.2 }
      stages := m.stages.set i (routineAccess info stage).2.1 }

def accessStep (base : Nat) (m : Machine) : Access → Option Machine
  | .recv info clientAddr => recvAccess base m info clientAddr
  | .server =>
    match m.hand with
    | some h => handAccess m h
    | none => (step base m.server .server).map fun server => { m with server := server }
  | .worker i => workerAccess m i

/-- Every access but the end of a sweep, and that when the sweep copies back what it found. -/
def sweepsCopyBack (m : Machine) : Access → Prop
  | .server => copiesBack m.server .server
  | .recv _ _ => True
  | .worker _ => True

instance (m : Machine) : ∀ e, Decidable (sweepsCopyBack m e)
  | .server => inferInstanceAs (Decidable (copiesBack m.server .server))
  | .recv _ _ => isTrue trivial
  | .worker _ => isTrue trivial

/-- The order a worker has and has not answered. -/
def jobOf (info : ThreadInfo) (stage : Stage) : List Nat :=
  if info.threadWorkingFlag ∧ stage ≠ .clearing then [info.job] else []

/-- The orders with a worker that has not answered them. -/
def inWork (m : Machine) : List Nat := (m.server.threads.zip m.stages).flatMap fun p => jobOf p.1 p.2

/-- The order that is being handed over. -/
def handedOver (m : Machine) : List Nat := m.hand.toList.map Handing.job

/-! ## One worker -/

/-- What is said of a worker in each stage. -/
def Holds (accepted : List (Int × SockaddrIn)) (info : ThreadInfo) : Stage → Prop
  | .waiting => info.threadWorkingFlag = true → accepted[info.job]? = some (info.order, info.clientAddr)
  | .working => info.threadWorkingFlag = true ∧ accepted[info.job]? = some (info.order, info.clientAddr)
  | .adding order => info.threadWorkingFlag = true ∧ accepted[info.job]? = some (order, info.clientAddr)
  | .sending => info.threadWorkingFlag = true ∧
      ∃ order, accepted[info.job]? = some (order, info.clientAddr) ∧ info.order = answer order
  | .clearing => info.threadWorkingFlag = true

/-- The reply is that of its own order. -/
def Answers (accepted : List (Int × SockaddrIn)) (r : Nat × Int × SockaddrIn) : Prop :=
  ∃ order, accepted[r.1]? = some order ∧ r = (r.1, answer order.1, order.2)

variable {accepted : List (Int × SockaddrIn)} {info : ThreadInfo} {stage : Stage}

/-- A worker whose flag is not set is at its test. -/
theorem Holds.waiting_of_idle (h : Holds accepted info stage) (hflag : info.threadWorkingFlag = false) :
    stage = .waiting := by
  cases stage with
  | waiting => rfl
  | working => exact absurd (hflag.symm.trans h.1) Bool.false_ne_true
  | adding order => exact absurd (hflag.symm.trans h.1) Bool.false_ne_true
  | sending => exact absurd (hflag.symm.trans h.1) Bool.false_ne_true
  | clearing => exact absurd (hflag.symm.trans h) Bool.false_ne_true

/-- More orders are accepted. -/
theorem Holds.concat (h : Holds accepted info stage) (order : Int × SockaddrIn) :
    Holds (accepted ++ [order]) info stage := by
  cases stage with
  | waiting => exact fun hflag => getElem?_concat_of_some (h hflag)
  | working => exact ⟨h.1, getElem?_concat_of_some h.2⟩
  | adding order => exact ⟨h.1, getElem?_concat_of_some h.2⟩
  | sending =>
    obtain ⟨hflag, order, horder, hinfo⟩ := h
    exact ⟨hflag, order, getElem?_concat_of_some horder, hinfo⟩
  | clearing => exact h

/-- **One access of a worker**: what is said of it holds behind it, the flag is changed in the last stage only, and what
is sent is the answer to the order it no longer has. -/
theorem Holds.access (h : Holds accepted info stage) :
    Holds accepted (routineAccess info stage).1 (routineAccess info stage).2.1 ∧
    (routineAccess info stage).1.threadWorkingFlag = (info.threadWorkingFlag && stage != .clearing) ∧
    (∀ r ∈ (routineAccess info stage).2.2, Answers accepted r) ∧
    jobOf info stage = (routineAccess info stage).2.2.map Prod.fst ++
      jobOf (routineAccess info stage).1 (routineAccess info stage).2.1 := by
  cases stage with
  | waiting =>
    cases hflag : info.threadWorkingFlag with
    | false => simp [routineAccess, jobOf, Holds, hflag]
    | true =>
      have horder : accepted[info.job]? = some (info.order, info.clientAddr) := h hflag
      simp [routineAccess, jobOf, Holds, hflag, horder]
  | working =>
    obtain ⟨hflag, horder⟩ := h
    simp [routineAccess, jobOf, Holds, hflag, horder]
  | adding order =>
    obtain ⟨hflag, horder⟩ := h
    simp [routineAccess, jobOf, Holds, hflag, horder]
  | sending =>
    obtain ⟨hflag, order, horder, hinfo⟩ := h
    refine ⟨hflag, by simp [routineAccess], ?_, by simp [routineAccess, jobOf, hflag]⟩
    intro r hr
    obtain rfl := List.mem_singleton.1 hr
    exact ⟨(order, info.clientAddr), horder, by rw [hinfo]⟩
  | clearing =>
    have hflag : info.threadWorkingFlag = true := h
    simp [routineAccess, jobOf, Holds, hflag]

/-! ## The lists of workers -/

def flags (threads : List ThreadInfo) : List Bool := threads.map ThreadInfo.threadWorkingFlag

/-- The machine as a state of `step`, in which a worker is free until the last write of its hand-over; its orders and
replies may be any. -/
def Machine.asServer (m : Machine) (threads : List ThreadInfo) (accepted : List (Int × SockaddrIn))
    (replies : List (Nat × Int × SockaddrIn)) : Server :=
  { m.server with
    threads := threads
    accepted := accepted
    replies := replies
    freeThreadsCount := m.server.freeThreadsCount + (handedOver m).length }

/-- The workers are free or occupied as in a run of `step`. -/
def Whole (base : Nat) (m : Machine) : Prop :=
  ∃ threads accepted replies, flags threads = flags m.server.threads ∧
    PoolInv base (m.asServer threads accepted replies)

/-- What is said of a hand-over: its worker is the last of the free ones, and its order is written as far as the next
write. -/
structure HandOk (base : Nat) (m : Machine) (h : Handing) : Prop where
  head : m.server.pc = .head
  info : h.info ≠ -1
  thread : m.server.freeThreads[m.server.freeThreadsCount]? = some h.thread
  worker : workerAt base h.thread = some h.worker
  order : m.server.accepted[h.job]? = some (h.info, h.clientAddr)
  written : ∀ info, m.server.threads[h.worker]? = some info → h.next ≠ .order →
    info.order = h.info ∧ info.job = h.job ∧ (h.next = .flag → info.clientAddr = h.clientAddr)

/-- Every order is in one of three places, and what is said of it there is true. -/
structure Orders (base : Nat) (m : Machine) : Prop where
  threads : m.server.threads.length = threadCount
  stages : m.stages.length = threadCount
  whole : Whole base m
  hand : ∀ h, m.hand = some h → HandOk base m h
  workers : ∀ (i : Nat) (info : ThreadInfo) (stage : Stage), m.server.threads[i]? = some info →
    m.stages[i]? = some stage → Holds m.server.accepted info stage
  answered : ∀ r ∈ m.server.replies, Answers m.server.accepted r
  conserved : (m.server.replies.map Prod.fst ++ (inWork m ++ handedOver m)).Perm (List.range m.server.accepted.length)

variable {base : Nat} {m n : Machine} {h hd : Handing}

theorem getElem?_flags {xs ys : List ThreadInfo} (hflags : flags xs = flags ys) {i : Nat} {info : ThreadInfo}
    (hi : ys[i]? = some info) : ∃ info', xs[i]? = some info' ∧ info'.threadWorkingFlag = info.threadWorkingFlag := by
  have hget : (flags xs)[i]? = (flags ys)[i]? := congrArg (fun l : List Bool => l[i]?) hflags
  rw [flags, flags, List.getElem?_map, List.getElem?_map, hi, Option.map_some] at hget
  obtain ⟨info', hinfo', hflag⟩ := Option.map_eq_some_iff.1 hget
  exact ⟨info', hinfo', hflag⟩

theorem flags_set {xs ys : List ThreadInfo} (hflags : flags xs = flags ys) (i : Nat) {a b : ThreadInfo}
    (hab : a.threadWorkingFlag = b.threadWorkingFlag) : flags (xs.set i a) = flags (ys.set i b) := by
  have hmap : xs.map ThreadInfo.threadWorkingFlag = ys.map ThreadInfo.threadWorkingFlag := hflags
  rw [flags, flags, List.map_set, List.map_set, hab, hmap]

/-- A write that leaves the flag as it is. -/
theorem flags_set_same {xs : List ThreadInfo} {i : Nat} {a b : ThreadInfo} (hi : xs[i]? = some a)
    (hab : b.threadWorkingFlag = a.threadWorkingFlag) : flags (xs.set i b) = flags xs := by
  obtain ⟨hlt, rfl⟩ := List.getElem?_eq_some_iff.1 hi
  rw [flags_set rfl i hab, List.set_getElem_self]

theorem zip_set {α β : Type} : ∀ (xs : List α) (ys : List β) (i : Nat) (x : α) (y : β),
    (xs.set i x).zip (ys.set i y) = (xs.zip ys).set i (x, y)
  | [], _, _, _, _ => rfl
  | _ :: _, [], 0, _, _ => rfl
  | _ :: _, [], _ + 1, _, _ => rfl
  | _ :: _, _ :: _, 0, _, _ => rfl
  | a :: xs, b :: ys, i + 1, x, y => congrArg ((a, b) :: ·) (zip_set xs ys i x y)

/-- The worker that is handed an order does not work. -/
theorem HandOk.idle (hh : HandOk base m h) (hhand : m.hand = some h) (hwhole : Whole base m) :
    ∃ info, m.server.threads[h.worker]? = some info ∧ info.threadWorkingFlag = false := by
  obtain ⟨threads, accepted, replies, hflags, hinv⟩ := hwhole
  have hcount : (m.asServer threads accepted replies).freeThreadsCount = m.server.freeThreadsCount + 1 := by
    show m.server.freeThreadsCount + (handedOver m).length = _
    rw [handedOver, hhand]
    rfl
  obtain ⟨p, hp, i, info, -, rfl, hget, hidle⟩ := hinv.ok.idle hh.head (by rw [hcount]; exact Nat.succ_pos _)
  rw [hcount, Nat.add_sub_cancel] at hp
  have hthread : h.thread = workerAddr base i := Option.some.inj (hh.thread.symm.trans hp)
  obtain ⟨-, hworker⟩ := workerAt_eq_some.1 hh.worker
  obtain rfl := workerAddr_injective (hthread.symm.trans hworker)
  obtain ⟨info', hinfo', hflag⟩ := getElem?_flags hflags.symm hget
  exact ⟨info', hinfo', hflag.trans hidle⟩

/-- With nothing handed over the free workers are those counted. -/
theorem asServer_of_none (hhand : m.hand = none) (threads : List ThreadInfo) (accepted : List (Int × SockaddrIn))
    (replies : List (Nat × Int × SockaddrIn)) : m.asServer threads accepted replies =
      { m.server with threads := threads, accepted := accepted, replies := replies } := by
  have hnone : handedOver m = [] := by rw [handedOver, hhand]; rfl
  unfold Machine.asServer
  rw [hnone]
  rfl

section Sweep

variable {s : Server} {i k thread worker : Nat}

theorem step_round (hpc : s.pc = .sweep i k) (hlt : i < s.occupiedThreadsCount) :
    step base s .server = sweepRound base s i k := by
  simp only [step, hpc, if_pos hlt]

theorem step_copied (hpc : s.pc = .sweep i k) (hge : ¬ i < s.occupiedThreadsCount) :
    step base s .server = some (copied s k) := by
  simp only [step, hpc, if_neg hge]
  rfl

theorem sweepRound_idle (hthread : s.occupiedThreads[i]? = some thread) (hat : workerAt base thread = some worker)
    (hinfo : s.threads[worker]? = some info) (hflag : info.threadWorkingFlag = false) {freeThreads : List Nat}
    (hstore : store s.freeThreads s.freeThreadsCount thread = some freeThreads) : sweepRound base s i k = some { s with
      pc := .sweep (i + 1) k
      freeThreads := freeThreads
      freeThreadsCount := s.freeThreadsCount + 1
      found := s.found ++ [false] } := by
  simp only [sweepRound, hthread, hat, hinfo, hflag, hstore, Option.bind_eq_bind, Option.bind_some, if_true]

theorem sweepRound_working (hthread : s.occupiedThreads[i]? = some thread) (hat : workerAt base thread = some worker)
    (hinfo : s.threads[worker]? = some info) (hflag : info.threadWorkingFlag = true) {temp : List Nat}
    (hstore : store s.temp k thread = some temp) : sweepRound base s i k =
      some { s with pc := .sweep (i + 1) (k + 1), temp := temp, found := s.found ++ [true] } := by
  simp only [sweepRound, hthread, hat, hinfo, hflag, hstore, Option.bind_eq_bind, Option.bind_some, Bool.true_eq_false,
    if_false]

/-- A sweep reads nothing of the workers but their flags. -/
theorem step_server_congr {t : Server} {threads : List ThreadInfo} (accepted : List (Int × SockaddrIn))
    (replies : List (Nat × Int × SockaddrIn)) (hflags : flags threads = flags s.threads)
    (hs : step base s .server = some t) :
    step base { s with threads := threads, accepted := accepted, replies := replies } .server =
      some { t with threads := threads, accepted := accepted, replies := replies } ∧
    t.threads = s.threads ∧ t.accepted = s.accepted ∧ t.replies = s.replies := by
  obtain ⟨i, k, hpc, ⟨hlt, hround⟩ | ⟨hge, rfl⟩⟩ := server_cases hs
  · obtain ⟨thread, worker, info, hthread, hat, hinfo, hmoved⟩ := sweepRound_cases hround
    obtain ⟨info', hinfo', hflag⟩ := getElem?_flags hflags hinfo
    let u : Server := { s with threads := threads, accepted := accepted, replies := replies }
    rw [step_round (s := u) hpc hlt]
    rcases hmoved with ⟨hidle, freeThreads, hstore, rfl⟩ | ⟨hworking, temp, hstore, rfl⟩
    · exact ⟨sweepRound_idle (s := u) hthread hat hinfo' (hflag.trans hidle) hstore, rfl, rfl, rfl⟩
    · exact ⟨sweepRound_working (s := u) hthread hat hinfo' (hflag.trans hworking) hstore, rfl, rfl, rfl⟩
  · exact ⟨step_copied hpc hge, rfl, rfl, rfl⟩

end Sweep

/-! ## The steps -/

theorem step_finish {s : Server} {i : Nat} (hpc : s.pc ≠ .stopped) (hi : s.threads[i]? = some info)
    (hflag : info.threadWorkingFlag = true) : step base s (.finish i) = some { s with
      threads := s.threads.set i { info with order := answer info.order, threadWorkingFlag := false }
      replies := s.replies ++ [(info.job, answer info.order, info.clientAddr)] } := by
  simp only [step, hi, hflag, if_true]

theorem workerAccess_cases {i : Nat} (hs : workerAccess m i = some n) : m.server.pc ≠ .stopped ∧ ∃ info stage,
    m.server.threads[i]? = some info ∧ m.stages[i]? = some stage ∧ n = { m with
      server := { m.server with
        threads := m.server.threads.set i (routineAccess info stage).1
        replies := m.server.replies ++ (routineAccess info stage).2.2 }
      stages := m.stages.set i (routineAccess info stage).2.1 } := by
  unfold workerAccess at hs
  split at hs
  · cases hs
  · rename_i hpc
    obtain ⟨info, hinfo, hs⟩ := Option.bind_eq_some_iff.1 hs
    obtain ⟨stage, hstage, hs⟩ := Option.bind_eq_some_iff.1 hs
    exact ⟨hpc, info, stage, hinfo, hstage, (Option.some.inj hs).symm⟩

theorem workerAccess_eq {i : Nat} (hpc : m.server.pc ≠ .stopped) (hi : m.server.threads[i]? = some info)
    (hstage : m.stages[i]? = some stage) : workerAccess m i = some { m with
      server := { m.server with
        threads := m.server.threads.set i (routineAccess info stage).1
        replies := m.server.replies ++ (routineAccess info stage).2.2 }
      stages := m.stages.set i (routineAccess info stage).2.1 } := by
  simp only [workerAccess, if_neg hpc, hi, hstage, Option.bind_eq_bind, Option.bind_some]

/-- The two lists change only where a worker clears its flag, which is where `step` has it finish. -/
theorem Whole.worker {i : Nat} (h : Whole base m) (hpc : m.server.pc ≠ .stopped) (hi : m.server.threads[i]? = some info)
    (hholds : Holds m.server.accepted info stage) (replies : List (Nat × Int × SockaddrIn)) (stages : List Stage) :
    Whole base { m with
      server := { m.server with threads := m.server.threads.set i (routineAccess info stage).1, replies := replies }
      stages := stages } := by
  obtain ⟨threads, accepted, olds, hflags, hinv⟩ := h
  have hflag := hholds.access.2.1
  by_cases hclearing : stage = .clearing
  · subst hclearing
    have hset : info.threadWorkingFlag = true := hholds
    obtain ⟨info', hi', hflag'⟩ := getElem?_flags hflags hi
    have hfinish := hinv.finish
      (step_finish (s := m.asServer threads accepted olds) hpc hi' (hflag'.trans hset))
    exact ⟨threads.set i { info' with order := answer info'.order, threadWorkingFlag := false }, accepted, _,
      flags_set hflags i rfl, hfinish⟩
  · have hsame : (routineAccess info stage).1.threadWorkingFlag = info.threadWorkingFlag := by
      rw [hflag, bne_iff_ne.2 hclearing, Bool.and_true]
    exact ⟨threads, accepted, olds, hflags.trans (flags_set_same hi hsame).symm, hinv⟩

theorem Orders.worker {i : Nat} (h : Orders base m) (hs : workerAccess m i = some n) : Orders base n := by
  obtain ⟨hpc, info, stage, hi, hstage, rfl⟩ := workerAccess_cases hs
  have hholds := h.workers i info stage hi hstage
  obtain ⟨hholds', -, hanswers, hjobs⟩ := hholds.access
  constructor
  case threads => rw [List.length_set, h.threads]
  case stages => rw [List.length_set, h.stages]
  case whole => exact h.whole.worker hpc hi hholds _ _
  case hand =>
    intro hd hhand
    have hok := h.hand hd hhand
    refine ⟨hok.head, hok.info, hok.thread, hok.worker, hok.order, fun info' hinfo' => ?_⟩
    rcases getElem?_set_cases hinfo' with ⟨rfl, rfl⟩ | ⟨-, hinfo'⟩
    · -- the worker that is handed the order only tests its flag
      obtain ⟨old, hold, hidle⟩ := hok.idle hhand h.whole
      obtain rfl := Option.some.inj (hi.symm.trans hold)
      obtain rfl := hholds.waiting_of_idle hidle
      exact hok.written info hi
    · exact hok.written info' hinfo'
  case workers =>
    intro j info' stage' hj hj'
    rcases getElem?_set_cases hj with ⟨rfl, rfl⟩ | ⟨hne, hj⟩
    · rcases getElem?_set_cases hj' with ⟨-, rfl⟩ | ⟨hne, -⟩
      · exact hholds'
      · exact absurd rfl hne
    · rcases getElem?_set_cases hj' with ⟨heq, -⟩ | ⟨-, hj'⟩
      · exact absurd heq hne
      · exact h.workers j info' stage' hj hj'
  case answered =>
    intro r hr
    rcases List.mem_append.1 hr with hr | hr
    · exact h.answered r hr
    · exact hanswers r hr
  case conserved =>
    -- what the worker no longer has it has answered
    have hzip : (m.server.threads.zip m.stages)[i]? = some (info, stage) :=
      List.getElem?_zip_eq_some.2 ⟨hi, hstage⟩
    have hset := perm_flatMap_set (fun p : ThreadInfo × Stage => jobOf p.1 p.2) hzip
      ((routineAccess info stage).1, (routineAccess info stage).2.1)
    have hconserved := h.conserved
    rw [List.perm_iff_count] at hset hconserved ⊢
    intro k
    have hset := hset k
    have hconserved := hconserved k
    have hjobs := congrArg (List.count k) hjobs
    simp only [inWork, zip_set, handedOver, List.map_append, List.count_append] at hset hconserved hjobs ⊢
    omega

theorem Whole.congr (h : Whole base m) (hflags : flags n.server.threads = flags m.server.threads)
    (hserver : ∀ threads accepted replies, n.asServer threads accepted replies = m.asServer threads accepted replies) :
    Whole base n := by
  obtain ⟨threads, accepted, replies, hsame, hinv⟩ := h
  exact ⟨threads, accepted, replies, hsame.trans hflags.symm, by rw [hserver]; exact hinv⟩

theorem Answers.concat {r : Nat × Int × SockaddrIn} (h : Answers accepted r) (order : Int × SockaddrIn) :
    Answers (accepted ++ [order]) r := by
  obtain ⟨own, hown, hr⟩ := h
  exact ⟨own, getElem?_concat_of_some hown, hr⟩

/-- The orders in work after a write to the fields of one worker. -/
theorem inWork_set {threads : List ThreadInfo} {stages : List Stage} {i : Nat} (hi : threads[i]? = some info)
    (hstage : stages[i]? = some stage) (info' : ThreadInfo) :
    (jobOf info stage ++ ((threads.set i info').zip stages).flatMap fun p => jobOf p.1 p.2).Perm
      (jobOf info' stage ++ (threads.zip stages).flatMap fun p => jobOf p.1 p.2) := by
  have hzip : (threads.zip stages)[i]? = some (info, stage) := List.getElem?_zip_eq_some.2 ⟨hi, hstage⟩
  have hset := perm_flatMap_set (fun p : ThreadInfo × Stage => jobOf p.1 p.2) hzip (info', stage)
  obtain ⟨hlt, rfl⟩ := List.getElem?_eq_some_iff.1 hstage
  rwa [← zip_set, List.set_getElem_self] at hset

/-! ### A request -/

theorem recvAccess_cases {info : Int} {clientAddr : SockaddrIn} (hs : recvAccess base m info clientAddr = some n) :
    m.hand = none ∧ m.server.pc = .head ∧
    ((info = -1 ∧ n = { m with server := { m.server with pc := .stopped } }) ∨
      (info ≠ -1 ∧ 0 < m.server.freeThreadsCount ∧ ∃ thread worker,
        m.server.freeThreads[m.server.freeThreadsCount - 1]? = some thread ∧ workerAt base thread = some worker ∧
        n = { m with
          server := { m.server with
            freeThreadsCount := m.server.freeThreadsCount - 1
            accepted := m.server.accepted ++ [(info, clientAddr)] }
          hand := some ⟨thread, worker, info, clientAddr, m.server.accepted.length, .order⟩ }) ∨
      (info ≠ -1 ∧ n = { m with server := beginSweep m.server })) := by
  unfold recvAccess at hs
  split at hs
  · rename_i hidle
    refine ⟨hidle.1, hidle.2, ?_⟩
    by_cases hstop : info = -1
    · rw [if_pos hstop] at hs
      exact .inl ⟨hstop, (Option.some.inj hs).symm⟩
    · rw [if_neg hstop] at hs
      by_cases hpos : 0 < m.server.freeThreadsCount
      · rw [if_pos hpos] at hs
        obtain ⟨thread, hthread, hs⟩ := Option.bind_eq_some_iff.1 hs
        obtain ⟨worker, hworker, hs⟩ := Option.bind_eq_some_iff.1 hs
        exact .inr (.inl ⟨hstop, hpos, thread, worker, hthread, hworker, (Option.some.inj hs).symm⟩)
      · rw [if_neg hpos] at hs
        exact .inr (.inr ⟨hstop, (Option.some.inj hs).symm⟩)
  · cases hs

theorem Orders.recv {info : Int} {clientAddr : SockaddrIn} (h : Orders base m)
    (hs : recvAccess base m info clientAddr = some n) : Orders base n := by
  obtain ⟨hhand, hpc, hcase⟩ := recvAccess_cases hs
  obtain ⟨threads, accepted, replies, hflags, hinv⟩ := h.whole
  rw [asServer_of_none hhand] at hinv
  rcases hcase with ⟨-, rfl⟩ | ⟨hinfo, hpos, thread, worker, hthread, hworker, rfl⟩ | ⟨-, rfl⟩
  · -- the server stops
    refine ⟨h.threads, h.stages, ⟨threads, accepted, replies, hflags, ?_⟩, ?_, h.workers, h.answered, h.conserved⟩
    · rw [asServer_of_none (by exact hhand)]
      exact ⟨hinv.threads, hinv.freeThreads, hinv.occupiedThreads, hinv.bound, hinv.freeCount, hinv.occupiedCount,
        trivial, hinv.idle, hinv.kept⟩
    · intro hd heq
      rw [hhand] at heq
      cases heq
  · -- the last free worker is chosen
    constructor
    case threads => exact h.threads
    case stages => exact h.stages
    case whole =>
      refine h.whole.congr rfl fun threads accepted replies => ?_
      rw [asServer_of_none hhand]
      show { m.server with
        threads := threads, accepted := accepted, replies := replies
        freeThreadsCount := m.server.freeThreadsCount - 1 + 1 } = _
      rw [Nat.sub_add_cancel hpos]
    case hand =>
      rintro hd ⟨⟩
      exact ⟨hpc, hinfo, hthread, hworker, List.getElem?_concat_length, fun _ _ hne => absurd rfl hne⟩
    case workers => exact fun i info stage hi hstage => (h.workers i info stage hi hstage).concat _
    case answered => exact fun r hr => (h.answered r hr).concat _
    case conserved =>
      have hnone : handedOver m = [] := by rw [handedOver, hhand]; rfl
      have hconserved := h.conserved
      rw [hnone, List.append_nil] at hconserved
      show (m.server.replies.map Prod.fst ++ (inWork m ++ [m.server.accepted.length])).Perm
        (List.range (m.server.accepted ++ [(info, clientAddr)]).length)
      rw [List.length_append, List.length_singleton, List.range_succ, ← List.append_assoc]
      exact hconserved.append_right _
  · -- no worker is free
    refine ⟨h.threads, h.stages, ⟨threads, accepted, replies, hflags, ?_⟩, ?_, h.workers, h.answered, h.conserved⟩
    · rw [asServer_of_none (by exact hhand)]
      exact hinv.begin (hinv.ok.partition hpc)
    · intro hd heq
      rw [hhand] at heq
      cases heq

/-! ### A sweep -/

theorem Orders.sweep (h : Orders base m) (hhand : m.hand = none) (hok : copiesBack m.server .server) {t : Server}
    (hs : step base m.server .server = some t) : Orders base { m with server := t } := by
  obtain ⟨threads, accepted, replies, hflags, hinv⟩ := h.whole
  obtain ⟨hstep, hthreads, haccepted, hreplies⟩ := step_server_congr accepted replies hflags hs
  rw [asServer_of_none hhand] at hinv
  have hwhole : Whole base { m with server := t } := by
    refine ⟨threads, accepted, replies, by rw [hthreads]; exact hflags, ?_⟩
    rw [asServer_of_none (by exact hhand)]
    exact hinv.server hok hstep
  refine ⟨by rw [hthreads]; exact h.threads, h.stages, hwhole, fun hd heq => ?_, ?_, ?_, ?_⟩
  · rw [hhand] at heq
    cases heq
  · rw [hthreads, haccepted]
    exact h.workers
  · rw [hreplies, haccepted]
    exact h.answered
  · show (t.replies.map Prod.fst ++ (((t.threads.zip m.stages).flatMap fun p => jobOf p.1 p.2) ++ handedOver m)).Perm
      (List.range t.accepted.length)
    rw [hthreads, hreplies, haccepted]
    exact h.conserved

/-! ### A hand-over -/

theorem handAccess_cases (hs : handAccess m h = some n) : ∃ old, m.server.threads[h.worker]? = some old ∧
    ((h.next = .order ∧ n = { m with
        server := { m.server with threads := m.server.threads.set h.worker { old with order := h.info, job := h.job } }
        hand := some { h with next := .clientAddr } }) ∨
      (h.next = .clientAddr ∧ n = { m with
        server := { m.server with threads := m.server.threads.set h.worker { old with clientAddr := h.clientAddr } }
        hand := some { h with next := .flag } }) ∨
      (h.next = .flag ∧ ∃ occupiedThreads,
        store m.server.occupiedThreads m.server.occupiedThreadsCount h.thread = some occupiedThreads ∧ n = { m with
          server := beginSweep { m.server with
            threads := m.server.threads.set h.worker { old with threadWorkingFlag := true }
            occupiedThreads := occupiedThreads
            occupiedThreadsCount := m.server.occupiedThreadsCount + 1 }
          hand := none })) := by
  obtain ⟨old, hold, hs⟩ := Option.bind_eq_some_iff.1 hs
  refine ⟨old, hold, ?_⟩
  cases hnext : h.next with
  | order =>
    rw [hnext] at hs
    exact .inl ⟨rfl, (Option.some.inj hs).symm⟩
  | clientAddr =>
    rw [hnext] at hs
    exact .inr (.inl ⟨rfl, (Option.some.inj hs).symm⟩)
  | flag =>
    rw [hnext] at hs
    obtain ⟨occupiedThreads, hstore, hs⟩ := Option.bind_eq_some_iff.1 hs
    exact .inr (.inr ⟨rfl, occupiedThreads, hstore, (Option.some.inj hs).symm⟩)

/-- What is said of the workers after a write to the fields of one that is at its test. -/
theorem Orders.workers_set (h : Orders base m) {i : Nat} {old info' : ThreadInfo}
    (hold : m.server.threads[i]? = some old) (hidle : old.threadWorkingFlag = false)
    (hwrite : info'.threadWorkingFlag = true → m.server.accepted[info'.job]? = some (info'.order, info'.clientAddr))
    (j : Nat) (info : ThreadInfo) (stage : Stage) (hj : (m.server.threads.set i info')[j]? = some info)
    (hstage : m.stages[j]? = some stage) : Holds m.server.accepted info stage := by
  rcases getElem?_set_cases hj with ⟨rfl, rfl⟩ | ⟨-, hj⟩
  · obtain rfl := (h.workers j old stage hold hstage).waiting_of_idle hidle
    exact hwrite
  · exact h.workers j info stage hj hstage

theorem Orders.exists_stage (h : Orders base m) {i : Nat} {old : ThreadInfo} (hold : m.server.threads[i]? = some old)
    (hidle : old.threadWorkingFlag = false) : m.stages[i]? = some .waiting := by
  have hlt : i < m.stages.length := by
    rw [h.stages, ← h.threads]
    exact (List.getElem?_eq_some_iff.1 hold).1
  have hstage := List.getElem?_eq_getElem hlt
  rw [hstage, (h.workers i old _ hold hstage).waiting_of_idle hidle]

theorem jobOf_idle {info : ThreadInfo} (hidle : info.threadWorkingFlag = false) (stage : Stage) :
    jobOf info stage = [] :=
  if_neg fun hwork => Bool.false_ne_true (hidle.symm.trans hwork.1)

/-- The order and the address are written while the worker is at its test. -/
theorem Orders.write (h : Orders base m) (hhand : m.hand = some hd) {old info' : ThreadInfo}
    (hold : m.server.threads[hd.worker]? = some old) (hidle : old.threadWorkingFlag = false)
    (hflag : info'.threadWorkingFlag = false) {hd' : Handing} (hjob : hd'.job = hd.job)
    (hok : HandOk base { m with
      server := { m.server with threads := m.server.threads.set hd.worker info' }, hand := some hd' } hd') :
    Orders base { m with
      server := { m.server with threads := m.server.threads.set hd.worker info' }, hand := some hd' } := by
  have hone : handedOver m = [hd.job] := by rw [handedOver, hhand]; rfl
  constructor
  case threads => rw [List.length_set, h.threads]
  case stages => exact h.stages
  case whole =>
    refine h.whole.congr (flags_set_same hold (hflag.trans hidle.symm)) fun threads accepted replies => ?_
    unfold Machine.asServer
    rw [hone]
    rfl
  case hand =>
    rintro _ ⟨⟩
    exact hok
  case workers =>
    exact h.workers_set hold hidle fun hwork => absurd (hflag.symm.trans hwork) Bool.false_ne_true
  case answered => exact h.answered
  case conserved =>
    have hset := inWork_set hold (h.exists_stage hold hidle) info'
    rw [jobOf_idle hidle, jobOf_idle hflag, List.nil_append, List.nil_append] at hset
    have hconserved := h.conserved
    rw [hone] at hconserved
    show (m.server.replies.map Prod.fst ++ ((((m.server.threads.set hd.worker info').zip m.stages).flatMap
      fun p => jobOf p.1 p.2) ++ [hd'.job])).Perm _
    rw [hjob]
    exact ((hset.append_right _).append_left _).trans hconserved

theorem assign_eq {s : Server} (info : Int) (clientAddr : SockaddrIn) {thread worker : Nat} {occupiedThreads : List Nat}
    (hthread : s.freeThreads[s.freeThreadsCount - 1]? = some thread) (hworker : workerAt base thread = some worker)
    (hstore : store s.occupiedThreads s.occupiedThreadsCount thread = some occupiedThreads) :
    assign base s info clientAddr = some { s with
      threads := s.threads.set worker ⟨info, clientAddr, true, s.accepted.length⟩
      freeThreadsCount := s.freeThreadsCount - 1
      occupiedThreads := occupiedThreads
      occupiedThreadsCount := s.occupiedThreadsCount + 1
      accepted := s.accepted ++ [(info, clientAddr)] } := by
  simp only [assign, hthread, hworker, hstore, Option.bind_eq_bind, Option.bind_some]

/-- With the last write the worker is occupied, as after the hand-over of `step`. -/
theorem Whole.flag (hbase : base + threadInfoSize * threadCount ≤ pointerValues) (h : Whole base m)
    (hhand : m.hand = some hd) (hok : HandOk base m hd) (old : ThreadInfo) {occupiedThreads : List Nat}
    (hstore : store m.server.occupiedThreads m.server.occupiedThreadsCount hd.thread = some occupiedThreads) :
    Whole base { m with
      server := beginSweep { m.server with
        threads := m.server.threads.set hd.worker { old with threadWorkingFlag := true }
        occupiedThreads := occupiedThreads
        occupiedThreadsCount := m.server.occupiedThreadsCount + 1 }
      hand := none } := by
  obtain ⟨threads, accepted, replies, hflags, hinv⟩ := h
  obtain ⟨s, hs⟩ : ∃ s, m.asServer threads accepted replies = s := ⟨_, rfl⟩
  have hcount : s.freeThreadsCount = m.server.freeThreadsCount + 1 := by
    rw [← hs]
    show m.server.freeThreadsCount + (handedOver m).length = _
    rw [handedOver, hhand]
    rfl
  have hthread : s.freeThreads[s.freeThreadsCount - 1]? = some hd.thread := by
    rw [hcount, Nat.add_sub_cancel, ← hs]
    exact hok.thread
  have hstore' : store s.occupiedThreads s.occupiedThreadsCount hd.thread = some occupiedThreads := by
    rw [← hs]
    exact hstore
  have hpc : s.pc = .head := by
    rw [← hs]
    exact hok.head
  have hassign := assign_eq hd.info hd.clientAddr hthread hok.worker hstore'
  rw [hs] at hinv
  obtain ⟨hassigned, hhead⟩ := hinv.assign hbase hpc (by rw [hcount]; exact Nat.succ_pos _) hassign
  have hbegun := hassigned.begin (hassigned.ok.partition hhead)
  refine ⟨s.threads.set hd.worker ⟨hd.info, hd.clientAddr, true, s.accepted.length⟩,
    s.accepted ++ [(hd.info, hd.clientAddr)], replies, ?_, ?_⟩
  · refine flags_set ?_ hd.worker rfl
    rw [← hs]
    exact hflags
  · rw [asServer_of_none rfl]
    rw [hcount] at hbegun
    subst hs
    exact hbegun

theorem Orders.handOver (hbase : base + threadInfoSize * threadCount ≤ pointerValues) (h : Orders base m)
    (hhand : m.hand = some hd) (hs : handAccess m hd = some n) : Orders base n := by
  have hok := h.hand hd hhand
  obtain ⟨old, hold, hidle⟩ := hok.idle hhand h.whole
  have hlt := (List.getElem?_eq_some_iff.1 hold).1
  obtain ⟨old', hold', hcase⟩ := handAccess_cases hs
  obtain rfl := Option.some.inj (hold.symm.trans hold')
  rcases hcase with ⟨-, rfl⟩ | ⟨hnext, rfl⟩ | ⟨hnext, occupiedThreads, hstore, rfl⟩
  · refine h.write hhand hold hidle (by exact hidle) rfl
      ⟨hok.head, hok.info, hok.thread, hok.worker, hok.order, fun info hinfo _ => ?_⟩
    obtain rfl := Option.some.inj ((List.getElem?_set_self hlt).symm.trans hinfo)
    exact ⟨rfl, rfl, fun hflag => nomatch hflag⟩
  · refine h.write hhand hold hidle (by exact hidle) rfl
      ⟨hok.head, hok.info, hok.thread, hok.worker, hok.order, fun info hinfo _ => ?_⟩
    obtain rfl := Option.some.inj ((List.getElem?_set_self hlt).symm.trans hinfo)
    obtain ⟨horder, hjob, -⟩ := hok.written old hold (by rw [hnext]; exact Write.noConfusion)
    exact ⟨horder, hjob, fun _ => rfl⟩
  · obtain ⟨horder, hjob, haddr⟩ := hok.written old hold (by rw [hnext]; exact Write.noConfusion)
    have hkept : m.server.accepted[old.job]? = some (old.order, old.clientAddr) := by
      rw [hjob, horder, haddr hnext]
      exact hok.order
    constructor
    case threads => exact List.length_set.trans h.threads
    case stages => exact h.stages
    case whole => exact h.whole.flag hbase hhand hok old hstore
    case hand => exact fun _ heq => nomatch heq
    case workers => exact h.workers_set hold hidle fun _ => hkept
    case answered => exact h.answered
    case conserved =>
      -- the order goes from the hand-over to the worker
      have hset := inWork_set hold (h.exists_stage hold hidle) { old with threadWorkingFlag := true }
      have hjobs : jobOf { old with threadWorkingFlag := true } .waiting = [hd.job] := by
        rw [← hjob]
        exact if_pos ⟨rfl, Stage.noConfusion⟩
      have hone : handedOver m = [hd.job] := by rw [handedOver, hhand]; rfl
      rw [jobOf_idle hidle, hjobs, List.nil_append] at hset
      have hconserved := h.conserved
      rw [hone] at hconserved
      show (m.server.replies.map Prod.fst ++ ((((m.server.threads.set hd.worker
        { old with threadWorkingFlag := true }).zip m.stages).flatMap fun p : ThreadInfo × Stage => jobOf p.1 p.2) ++
          [])).Perm _
      rw [List.append_nil]
      exact ((hset.trans List.perm_append_comm).append_left _).trans hconserved

theorem Orders.step (hbase : base + threadInfoSize * threadCount ≤ pointerValues) (h : Orders base m) {e : Access}
    (hok : sweepsCopyBack m e) (hs : accessStep base m e = some n) : Orders base n := by
  cases e with
  | recv info clientAddr => exact h.recv hs
  | worker i => exact h.worker hs
  | server =>
    cases hhand : m.hand with
    | some hd =>
      simp only [accessStep, hhand] at hs
      exact h.handOver hbase hhand hs
    | none =>
      simp only [accessStep, hhand] at hs
      obtain ⟨t, ht, rfl⟩ := Option.map_eq_some_iff.1 hs
      have hsweep := h.sweep hhand hok ht
      rwa [hhand] at hsweep

theorem orders_start (base : Nat) : Orders base (startMachine base) where
  threads := List.length_replicate
  stages := List.length_replicate
  whole := ⟨_, _, _, rfl, poolInv_start base⟩
  hand _ h := nomatch h
  workers i info stage hi hstage := by
    have hinfo := List.eq_of_mem_replicate (List.mem_of_getElem? hi)
    have hstage := List.eq_of_mem_replicate (List.mem_of_getElem? hstage)
    subst hinfo hstage
    exact fun hflag => absurd hflag Bool.false_ne_true
  answered _ h := absurd h List.not_mem_nil
  conserved := List.Perm.refl []

/-! ## The runs -/

/-- The accesses of a worker up to its `sendto`. -/
def accessesLeft : Stage → Nat
  | .waiting => 4
  | .working => 3
  | .adding _ => 2
  | .sending => 1
  | .clearing => 0

theorem accessesLeft_access {k : Nat} (hflag : info.threadWorkingFlag = true) (hleft : accessesLeft stage = k + 2) :
    accessesLeft (routineAccess info stage).2.1 = k + 1 ∧ (routineAccess info stage).1.threadWorkingFlag = true ∧
      (routineAccess info stage).1.job = info.job := by
  cases stage with
  | waiting =>
    refine ⟨?_, hflag, rfl⟩
    simp only [routineAccess, if_pos hflag]
    exact Nat.succ.inj hleft
  | working => exact ⟨Nat.succ.inj hleft, hflag, rfl⟩
  | adding order => exact ⟨Nat.succ.inj hleft, hflag, rfl⟩
  | sending => cases hleft
  | clearing => cases hleft

/-- A worker that has an order answers it with its next accesses. -/
theorem answered_of_accesses {i : Nat} : ∀ (k : Nat) {m : Machine} {info : ThreadInfo} {stage : Stage},
    m.server.pc ≠ .stopped → m.server.threads[i]? = some info → m.stages[i]? = some stage →
    info.threadWorkingFlag = true → accessesLeft stage = k + 1 →
    ∃ n, run (accessStep base) m (List.replicate (k + 1) (.worker i)) = some n ∧
      info.job ∈ n.server.replies.map Prod.fst := by
  intro k
  induction k with
  | zero =>
    intro m info stage hpc hi hstage hflag hleft
    obtain rfl : stage = .sending := by
      cases stage with
      | sending => rfl
      | waiting => cases hleft
      | working => cases hleft
      | adding order => cases hleft
      | clearing => cases hleft
    have hstep : accessStep base m (.worker i) = some _ := workerAccess_eq hpc hi hstage
    rw [List.replicate_one, Run.run_cons, hstep]
    refine ⟨_, rfl, ?_⟩
    rw [List.map_append]
    exact List.mem_append_right _ (List.mem_singleton_self _)
  | succ k ih =>
    intro m info stage hpc hi hstage hflag hleft
    obtain ⟨hleft', hflag', hjob⟩ := accessesLeft_access hflag hleft
    have hstep : accessStep base m (.worker i) = some _ := workerAccess_eq hpc hi hstage
    rw [List.replicate_succ, Run.run_cons, hstep, Option.bind_some, ← hjob]
    refine ih hpc ?_ ?_ hflag' hleft'
    · exact List.getElem?_set_self (List.getElem?_eq_some_iff.1 hi).1
    · exact List.getElem?_set_self (List.getElem?_eq_some_iff.1 hstage).1

/-- The order is answered by at most four accesses of a worker, whoever else does nothing. -/
def CanBeAnswered (base : Nat) (m : Machine) (job : Nat) : Prop :=
  ∃ i k n, k ≤ 4 ∧ run (accessStep base) m (List.replicate k (.worker i)) = some n ∧ job ∈ n.server.replies.map Prod.fst

theorem canBeAnswered_of_inWork (hpc : m.server.pc ≠ .stopped) {job : Nat} (hjob : job ∈ inWork m) :
    CanBeAnswered base m job := by
  obtain ⟨p, hp, hjob⟩ := List.mem_flatMap.1 hjob
  obtain ⟨i, hi⟩ := List.mem_iff_getElem?.1 hp
  obtain ⟨hinfo, hstage⟩ := List.getElem?_zip_eq_some.1 hi
  unfold jobOf at hjob
  split at hjob
  · rename_i hwork
    obtain rfl := List.mem_singleton.1 hjob
    obtain ⟨k, hk⟩ : ∃ k, accessesLeft p.2 = k + 1 := by
      cases hstage : p.2 with
      | clearing => exact absurd hstage hwork.2
      | waiting => exact ⟨3, rfl⟩
      | working => exact ⟨2, rfl⟩
      | adding order => exact ⟨1, rfl⟩
      | sending => exact ⟨0, rfl⟩
    have hle : accessesLeft p.2 ≤ 4 := by cases p.2 <;> simp [accessesLeft]
    obtain ⟨n, hn, hmem⟩ := answered_of_accesses k hpc hinfo hstage hwork.1 hk
    exact ⟨i, k + 1, n, hk ▸ hle, hn, hmem⟩
  · cases hjob

/-- **No order is answered twice, or for another, and none disappears**, in every interleaving of the accesses whose
sweeps copy back what they found: each order for which there was a free worker is in exactly one place, being handed
over, with a worker that has not answered it, or among the replies; each reply is that of its own order, to its own
sender; and while the server goes on a worker that has an order can answer it. -/
theorem orders_conserved (base : Nat) (hbase : base + threadInfoSize * threadCount ≤ pointerValues) (es : List Access)
    (m : Machine) (hrun : run (accessStep base) (startMachine base) es = some m)
    (hcopies : Run.Steps (accessStep base) sweepsCopyBack (startMachine base) es) :
    (m.server.replies.map Prod.fst ++ (inWork m ++ handedOver m)).Perm (List.range m.server.accepted.length) ∧
    (∀ r ∈ m.server.replies, Answers m.server.accepted r) ∧
    (m.server.pc ≠ .stopped → ∀ job ∈ inWork m, CanBeAnswered base m job) := by
  have h : Orders base m :=
    Run.run_inv_of_steps (fun _ _ _ h hok hs => Orders.step hbase h hok hs) es _ _ (orders_start base) hcopies hrun
  exact ⟨h.conserved, h.answered, fun hpc _ hjob => canBeAnswered_of_inWork hpc hjob⟩

/-- Two orders; the first is answered while the second is handed over. -/
def twoOrders : List Access :=
  [.recv 1 ⟨1, 1⟩, .server, .server, .server, .worker 9, .worker 9, .server, .server, .recv 2 ⟨1, 2⟩, .worker 9,
    .server, .worker 9, .server, .worker 9, .server]

theorem places_twoOrders : (run (accessStep 4096) (startMachine 4096) twoOrders).map
    (fun m => (m.server.replies.map Prod.fst, inWork m, m.server.pc)) = some ([0], [1], .sweep 0 0) := by
  decide +kernel

theorem orders_conserved_twoOrders : ∃ m, run (accessStep 4096) (startMachine 4096) twoOrders = some m ∧
    (m.server.replies.map Prod.fst ++ (inWork m ++ handedOver m)).Perm (List.range m.server.accepted.length) ∧
    (∀ r ∈ m.server.replies, Answers m.server.accepted r) ∧ CanBeAnswered 4096 m 1 := by
  obtain ⟨m, hrun, hplaces⟩ := Option.map_eq_some_iff.1 places_twoOrders
  obtain ⟨-, hrest⟩ := Prod.mk.inj hplaces
  obtain ⟨hwork, hpc⟩ := Prod.mk.inj hrest
  obtain ⟨hconserved, hanswered, hcan⟩ :=
    orders_conserved 4096 (by decide) twoOrders m hrun (by decide +kernel)
  refine ⟨m, hrun, hconserved, hanswered, hcan ?_ 1 ?_⟩
  · rw [hpc]
    exact Pc.noConfusion
  · rw [hwork]
    exact List.mem_singleton_self 1

/-- A whole hand-over, and all accesses of a worker for one order. -/
def handsOver (info : Int) (clientAddr : SockaddrIn) : List Access := .recv info clientAddr :: List.replicate 3 .server

def answers (i : Nat) : List Access := List.replicate 5 (.worker i)

/-- A sweep that does not copy back what it found lists worker 8 twice.  It has answered order 4 and not cleared its
flag when it is handed order 5, which is then nowhere. -/
example : (run (accessStep 4096) (startMachine 4096)
    (handsOver 1 ⟨1, 1⟩ ++ List.replicate 2 .server ++ handsOver 2 ⟨1, 2⟩ ++ List.replicate 3 .server ++
      handsOver 3 ⟨1, 3⟩ ++ answers 9 ++ List.replicate 4 .server ++ answers 8 ++ handsOver 4 ⟨1, 4⟩ ++
      List.replicate 4 .server ++ handsOver 5 ⟨1, 5⟩ ++ List.replicate 3 .server ++
      List.replicate 4 (.worker 8) ++ handsOver 6 ⟨1, 6⟩ ++ [.worker 8])).map
    (fun m => (m.server.replies.map Prod.fst, inWork m, handedOver m)) = some ([0, 1, 4], [2, 3], []) := by
  decide +kernel

end ManCon
end Eltex
