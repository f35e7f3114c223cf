import EltexTasks.Run
import EltexTasks.PointerBytes
/-!
# ManConServer — the server with a pool of workers

server_models/source/man_con_server.c: `man_con_server` and `thread_routine`.  A worker may finish between any two steps
of the server: its reading of one `thread_working_flag` is a step, and so is the `memcpy` that ends the sweep.  What a
worker does to its fields when it finishes is one step here, for the pool depends on its flag only; in `Machine` each
access is a step.
-/
namespace Eltex
namespace ManCon

def threadCount : Nat := 10

/-- `sizeof(thread_info_t)` -/
def threadInfoSize : Nat := 72

structure SockaddrIn where
  sinAddr : Nat
  sinPort : Nat
deriving DecidableEq, Repr

/-- A `thread_info_t`; `job` is the number of the accepted order the worker was handed last. -/
structure ThreadInfo where
  order : Int
  clientAddr : SockaddrIn
  threadWorkingFlag : Bool
  job : Nat
deriving DecidableEq, Repr

inductive Pc where
  | head
  | sweep (i newOccupiedThreadsCount : Nat)
  | stopped
deriving DecidableEq, Repr

/-- The server and its workers.  `found` lists the flags the sweep has read; `accepted` and `replies` record the orders
handed to workers and the answers sent, each with the number of its order. -/
structure Server where
  pc : Pc
  threads : List ThreadInfo
  freeThreads : List Nat
  freeThreadsCount : Nat
  occupiedThreads : List Nat
  occupiedThreadsCount : Nat
  temp : List Nat
  found : List Bool
  accepted : List (Int × SockaddrIn)
  replies : List (Nat × Int × SockaddrIn)
deriving DecidableEq, Repr

/-- `threads + i`, `base` being the address of the array. -/
def workerAddr (base i : Nat) : Nat := base + threadInfoSize * i

def workers (base : Nat) : List Nat := (List.range threadCount).map (workerAddr base)

/-- The state before the first request. -/
def start (base : Nat) : Server where
  pc := .head
  threads := List.replicate threadCount ⟨0, ⟨0, 0⟩, false, 0⟩
  freeThreads := workers base
  freeThreadsCount := threadCount
  occupiedThreads := List.replicate threadCount 0
  occupiedThreadsCount := 0
  temp := []
  found := []
  accepted := []
  replies := []

/-- The worker at the address `p`; `none` where `p` points to none of them. -/
def workerAt (base p : Nat) : Option Nat := (List.range threadCount).find? fun i => workerAddr base i == p

/-- `xs[i] = v`; `none` is a write past the end. -/
def store {α : Type} (xs : List α) (i : Nat) (v : α) : Option (List α) :=
  if i < xs.length then some (xs.set i v) else none

/-- The counter of the busy loop of `thread_routine` after `n` rounds. -/
def busyCount : Nat → Nat
  | 0 => 0
  | i + 1 => if i % 2 = 0 then (busyCount i + 1) % 2 ^ 64 else (busyCount i + 2 ^ 64 - 1) % 2 ^ 64

/-- `arg->order.info += a` -/
def answer (info : Int) : Int := (info + busyCount 99999999).bmod (2 ^ 32)

inductive Event where
  | recv (info : Int) (clientAddr : SockaddrIn)
  | server
  | finish (worker : Nat)
deriving DecidableEq, Repr

/-- The hand-over of an order to the last free worker. -/
def assign (base : Nat) (s : Server) (info : Int) (clientAddr : SockaddrIn) : Option Server := do
  let thread ← s.freeThreads[s.freeThreadsCount - 1]?
  let worker ← workerAt base thread
  let occupiedThreads ← store s.occupiedThreads s.occupiedThreadsCount thread
  some { s with
    threads := s.threads.set worker ⟨info, clientAddr, true, s.accepted.length⟩
    freeThreadsCount := s.freeThreadsCount - 1
    occupiedThreads := occupiedThreads
    occupiedThreadsCount := s.occupiedThreadsCount + 1
    accepted := s.accepted ++ [(info, clientAddr)] }

/-- The memory `calloc` returns for `temp`, read as pointers. -/
def callocTemp (occupiedThreadsCount : Nat) : List Nat :=
  List.replicate (occupiedThreadsCount * threadInfoSize / pointerSize) 0

/-- A round of the `for` loop: the worker goes to `free_threads` or to `temp`. -/
def sweepRound (base : Nat) (s : Server) (i newOccupiedThreadsCount : Nat) : Option Server := do
  let thread ← s.occupiedThreads[i]?
  let worker ← workerAt base thread
  let info ← s.threads[worker]?
  if info.threadWorkingFlag = false then
    let freeThreads ← store s.freeThreads s.freeThreadsCount thread
    some { s with
      pc := .sweep (i + 1) newOccupiedThreadsCount
      freeThreads := freeThreads
      freeThreadsCount := s.freeThreadsCount + 1
      found := s.found ++ [false] }
  else
    let temp ← store s.temp newOccupiedThreadsCount thread
    some { s with
      pc := .sweep (i + 1) (newOccupiedThreadsCount + 1)
      temp := temp
      found := s.found ++ [true] }

def step (base : Nat) (s : Server) : Event → Option Server
  | .recv info clientAddr =>
    match s.pc with
    | .head =>
      if info = -1 then some { s with pc := .stopped }
      else
        (if 0 < s.freeThreadsCount then assign base s info clientAddr else some s).map fun s =>
          { s with pc := .sweep 0 0, temp := callocTemp s.occupiedThreadsCount, found := [] }
    | _ => none
  | .server =>
    match s.pc with
    | .sweep i newOccupiedThreadsCount =>
      if i < s.occupiedThreadsCount then sweepRound base s i newOccupiedThreadsCount
      else
        some { s with
          pc := .head
          occupiedThreads := memcpyPointers s.occupiedThreads s.temp newOccupiedThreadsCount
          occupiedThreadsCount := newOccupiedThreadsCount }
    | _ => none
  | .finish worker =>
    match s.pc, s.threads[worker]? with
    | .stopped, _ => none
    | _, some info =>
      if info.threadWorkingFlag then
        some { s with
          threads := s.threads.set worker { info with order := answer info.order, threadWorkingFlag := false }
          replies := s.replies ++ [(info.job, answer info.order, info.clientAddr)] }
      else none
    | _, none => none

theorem busyCount_eq : ∀ n, busyCount n = n % 2
  | 0 => rfl
  | n + 1 => by
    rw [busyCount, busyCount_eq n]
    split <;> omega

/-- A worker answers the number of its order plus one. -/
theorem answer_eq (info : Int) : answer info = (info + 1).bmod (2 ^ 32) := by
  rw [answer, busyCount_eq]
  rfl

end ManCon
end Eltex
