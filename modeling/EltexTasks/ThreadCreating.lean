import EltexTasks.Run
import EltexTasks.Heap
import EltexTasks.ManConServer
/-!
# ThreadCreating — the server with a thread for each request

server_models/source/thread_creating_server.c: `thread_creating`, its list of threads and `thread_routine_cs`.  A thread
may finish between any two steps of the server: each round of the sweep is a step.  Threads are numbered in the order
they are created.  A `recvfrom` or `malloc` that fails ends the program and is left out.
-/
namespace Eltex
namespace ThreadCreating

open ManCon (SockaddrIn answer)

def threadMax : Nat := 10

structure ThreadInfo where
  order : Int
  clientAddr : SockaddrIn
  threadId : Nat
deriving DecidableEq, Repr

/-- A `thread_list_node_t` with the `thread_info_t` it owns. -/
structure Node where
  threadInfo : ThreadInfo
  nextNode : Option Addr
  prevNode : Option Addr
deriving DecidableEq, Repr

/-- `thread_list_add`.  `malloc` returns `new`, and what it finds there, `raw`, stays in `next_node` until that is
assigned: where the list is empty, it is not. -/
def threadListAdd (heap : Heap Node) (new : Addr) (raw : Option Addr) (whereNode : Option Addr) (info : ThreadInfo) :
    Option (Heap Node) := do
  let heap ← heap.malloc new ⟨info, raw, whereNode⟩
  match whereNode with
  | none => some heap
  | some last =>
    let node ← heap.load last
    let heap ← heap.modify new ({ · with nextNode := node.nextNode })
    heap.modify last ({ · with nextNode := some new })

/-- A write through a pointer that is not NULL. -/
def writeUnlessNull (heap : Heap Node) (p : Option Addr) (f : Node → Node) : Option (Heap Node) :=
  match p with
  | none => some heap
  | some a => heap.modify a f

def threadListDelete (heap : Heap Node) (arg : Addr) : Option (Heap Node) := do
  let node ← heap.load arg
  let heap ← writeUnlessNull heap node.prevNode ({ · with nextNode := node.nextNode })
  let node ← heap.load arg
  let heap ← writeUnlessNull heap node.nextNode ({ · with prevNode := node.prevNode })
  heap.free arg

inductive Pc where
  | head
  | sweep (iterator : Option Addr)
  | stopped
deriving DecidableEq, Repr

/-- The server and its threads.  `created` is the number of threads created; `finished` and `joined` list the threads
that have returned and the threads `pthread_tryjoin_np` has joined; `replies` are the answers sent. -/
structure Server where
  pc : Pc
  heap : Heap Node
  threadListLast : Option Addr
  threadCur : Nat
  created : Nat
  finished : List Nat
  joined : List Nat
  replies : List (Nat × Int × SockaddrIn)

/-- The state before the first request. -/
def start : Server where
  pc := .head
  heap := ∅
  threadListLast := none
  threadCur := 0
  created := 0
  finished := []
  joined := []
  replies := []

inductive Event where
  /-- A request; `new` and `raw` are what `malloc` returns if a thread is created. -/
  | recv (info : Int) (clientAddr : SockaddrIn) (new : Addr) (raw : Option Addr)
  | server
  /-- The thread of the node at `arg` returns. -/
  | finish (arg : Addr)

/-- A thread is created for a request. -/
def accept (s : Server) (info : Int) (clientAddr : SockaddrIn) (new : Addr) (raw : Option Addr) : Option Server :=
  (threadListAdd s.heap new raw s.threadListLast ⟨info, clientAddr, s.created⟩).map fun heap =>
    { s with heap := heap, threadListLast := some new, threadCur := s.threadCur + 1, created := s.created + 1 }

/-- A round of the `for` loop at the node `temp`, with the loop's own step to the node before. -/
def sweepRound (s : Server) (temp : Addr) : Option Server := do
  let node ← s.heap.load temp
  let thread := node.threadInfo.threadId
  if thread ∈ s.finished then
    let heap ← threadListDelete s.heap temp
    match node.prevNode with
    | none => some { s with pc := .head, heap := heap, threadListLast := none, joined := s.joined ++ [thread] }
    | some iterator =>
      let node ← heap.load iterator
      some { s with
        pc := .sweep node.prevNode
        heap := heap
        threadListLast := if node.nextNode = none then some iterator else s.threadListLast
        joined := s.joined ++ [thread] }
  else some { s with pc := .sweep node.prevNode }

/-- The end of `thread_routine_cs`: the answer is written to the node and sent. -/
def routineEnd (s : Server) (arg : Addr) : Option Server := do
  let node ← s.heap.load arg
  let info := node.threadInfo
  if info.threadId ∈ s.finished then none
  else
    let heap ← s.heap.modify arg fun node => { node with threadInfo := { info with order := answer info.order } }
    some { s with
      heap := heap
      finished := s.finished ++ [info.threadId]
      replies := s.replies ++ [(info.threadId, answer info.order, info.clientAddr)] }

def step (s : Server) : Event → Option Server
  | .recv info clientAddr new raw =>
    match s.pc with
    | .head =>
      if info = -1 then some { s with pc := .stopped }
      else
        (if s.threadCur ≤ threadMax then accept s info clientAddr new raw else some s).map fun s =>
          { s with pc := .sweep s.threadListLast }
    | _ => none
  | .server =>
    match s.pc with
    | .sweep none => some { s with pc := .head }
    | .sweep (some iterator) => sweepRound s iterator
    | _ => none
  | .finish arg =>
    match s.pc with
    | .stopped => none
    | _ => routineEnd s arg

end ThreadCreating
end Eltex
