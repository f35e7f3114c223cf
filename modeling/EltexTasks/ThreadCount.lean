import Mathlib.Data.List.Basic
import EltexTasks.ThreadCreating
/-!
# ThreadCount — what `thread_cur` counts

`thread_cur` goes up with every thread created and never down (`Counted`): it counts the threads created and not yet
joined only while no thread has been joined, and the limit is kept only by the first ten requests (`accounted_iff`).
After eleven requests the server ignores every other, with no thread left (`idle_server_ignores`).
-/
namespace Eltex
namespace ThreadCreating

open ManCon (SockaddrIn answer)

/-- The number of threads created and not yet joined. -/
def unjoined (s : Server) : Nat := ((List.range s.created).filter (· ∉ s.joined)).length

/-- The account at a head of the request loop; a request that creates no thread was ignored. -/
structure Accounted (s : Server) : Prop where
  count : s.threadCur = unjoined s
  bound : s.threadCur ≤ threadMax
  ignored : ∀ info clientAddr new raw t, info ≠ -1 → step s (.recv info clientAddr new raw) = some t →
    t.created = s.created → unjoined s = threadMax

/-- The sweep is at a thread that has returned. -/
def findsFinished (s : Server) : Pc → Prop
  | .sweep (some iterator) => ∃ node ∈ s.heap.load iterator, node.threadInfo.threadId ∈ s.finished
  | _ => False

/-- A request comes while fewer threads than the limit are counted, and the sweep finds no thread that has returned. -/
def keepsCount (s : Server) : Event → Prop
  | .recv info _ _ _ => info = -1 ∨ s.threadCur < threadMax
  | .server => ¬ findsFinished s s.pc
  | .finish _ => True

variable {s t : Server}

/-! ## What a step does -/

theorem recv_cases {info : Int} {clientAddr : SockaddrIn} {new : Addr} {raw : Option Addr}
    (hs : step s (.recv info clientAddr new raw) = some t) : s.pc = .head ∧
    ((info = -1 ∧ t = { s with pc := .stopped }) ∨
      (info ≠ -1 ∧ s.threadCur ≤ threadMax ∧
        ∃ m, accept s info clientAddr new raw = some m ∧ t = { m with pc := .sweep m.threadListLast }) ∨
      (info ≠ -1 ∧ threadMax < s.threadCur ∧ t = { s with pc := .sweep s.threadListLast })) := by
  simp only [step] at hs
  split at hs
  case h_2 => cases hs
  case h_1 hpc =>
    refine ⟨hpc, ?_⟩
    by_cases hinfo : info = -1
    · rw [if_pos hinfo] at hs
      exact Or.inl ⟨hinfo, (Option.some.inj hs).symm⟩
    · rw [if_neg hinfo] at hs
      obtain ⟨m, hm, rfl⟩ := Option.map_eq_some_iff.1 hs
      by_cases hcur : s.threadCur ≤ threadMax
      · rw [if_pos hcur] at hm
        exact Or.inr (Or.inl ⟨hinfo, hcur, m, hm, rfl⟩)
      · rw [if_neg hcur] at hm
        obtain rfl := Option.some.inj hm
        exact Or.inr (Or.inr ⟨hinfo, Nat.lt_of_not_le hcur, rfl⟩)

theorem accept_cases {info : Int} {clientAddr : SockaddrIn} {new : Addr} {raw : Option Addr}
    (hs : accept s info clientAddr new raw = some t) :
    ∃ heap, threadListAdd s.heap new raw s.threadListLast ⟨info, clientAddr, s.created⟩ = some heap ∧
      t = { s with heap := heap, threadListLast := some new, threadCur := s.threadCur + 1, created := s.created + 1 } := by
  obtain ⟨heap, hadd, rfl⟩ := Option.map_eq_some_iff.1 hs
  exact ⟨heap, hadd, rfl⟩

/-- What a round of the sweep changes in the books. -/
theorem sweepRound_cases {temp : Addr} (hs : sweepRound s temp = some t) : ∃ node, s.heap.load temp = some node ∧
    t.created = s.created ∧ t.threadCur = s.threadCur ∧
    ((node.threadInfo.threadId ∈ s.finished ∧ t.joined = s.joined ++ [node.threadInfo.threadId] ∧
        threadListDelete s.heap temp = some t.heap) ∨
      (node.threadInfo.threadId ∉ s.finished ∧ t.joined = s.joined ∧ t.heap = s.heap)) := by
  unfold sweepRound at hs
  obtain ⟨node, hnode, hs⟩ := Option.bind_eq_some_iff.1 hs
  refine ⟨node, hnode, ?_⟩
  by_cases hfin : node.threadInfo.threadId ∈ s.finished
  · simp only [if_pos hfin] at hs
    obtain ⟨heap, hdel, hs⟩ := Option.bind_eq_some_iff.1 hs
    split at hs
    · obtain rfl := Option.some.inj hs
      exact ⟨rfl, rfl, Or.inl ⟨hfin, rfl, hdel⟩⟩
    · obtain ⟨next, -, hs⟩ := Option.bind_eq_some_iff.1 hs
      obtain rfl := Option.some.inj hs
      exact ⟨rfl, rfl, Or.inl ⟨hfin, rfl, hdel⟩⟩
  · simp only [if_neg hfin] at hs
    obtain rfl := Option.some.inj hs
    exact ⟨rfl, rfl, Or.inr ⟨hfin, rfl, rfl⟩⟩

theorem server_cases (hs : step s .server = some t) :
    (s.pc = .sweep none ∧ t = { s with pc := .head }) ∨
      ∃ temp, s.pc = .sweep (some temp) ∧ sweepRound s temp = some t := by
  simp only [step] at hs
  split at hs
  · rename_i hpc
    exact Or.inl ⟨hpc, (Option.some.inj hs).symm⟩
  · rename_i temp hpc
    exact Or.inr ⟨temp, hpc, hs⟩
  · cases hs

theorem finish_cases {arg : Addr} (hs : step s (.finish arg) = some t) : ∃ node, s.heap.load arg = some node ∧
    s.heap.modify arg (fun n => { n with threadInfo :=
      { node.threadInfo with order := answer node.threadInfo.order } }) = some t.heap ∧
    t.created = s.created ∧ t.threadCur = s.threadCur ∧ t.joined = s.joined := by
  simp only [step] at hs
  split at hs
  · cases hs
  · unfold routineEnd at hs
    obtain ⟨node, hnode, hs⟩ := Option.bind_eq_some_iff.1 hs
    by_cases hfin : node.threadInfo.threadId ∈ s.finished
    · simp only [if_pos hfin] at hs
      cases hs
    · simp only [if_neg hfin] at hs
      obtain ⟨heap, hheap, hs⟩ := Option.bind_eq_some_iff.1 hs
      obtain rfl := Option.some.inj hs
      exact ⟨node, hnode, hheap, rfl, rfl, rfl⟩

/-! ## The numbers of the threads -/

/-- The node's thread is one of the first `k`. -/
def Numbered (k : Nat) (n : Node) : Prop := n.threadInfo.threadId < k

theorem each_threadListAdd {heap g : Heap Node} {k : Nat} {new : Addr} {raw last : Option Addr} {info : ThreadInfo}
    (he : heap.Each (Numbered k)) (hinfo : info.threadId < k) (hg : threadListAdd heap new raw last info = some g) :
    g.Each (Numbered k) := by
  unfold threadListAdd at hg
  obtain ⟨heap₁, h₁, hg⟩ := Option.bind_eq_some_iff.1 hg
  have he₁ : heap₁.Each (Numbered k) := he.malloc h₁ hinfo
  cases last with
  | none =>
    obtain rfl := Option.some.inj hg
    exact he₁
  | some last =>
    obtain ⟨node, -, hg⟩ := Option.bind_eq_some_iff.1 hg
    obtain ⟨heap₂, h₂, hg⟩ := Option.bind_eq_some_iff.1 hg
    have he₂ : heap₂.Each (Numbered k) := he₁.modify h₂ fun n hn => hn
    exact he₂.modify hg fun n hn => hn

theorem each_writeUnlessNull {heap g : Heap Node} {k : Nat} {p : Option Addr} {f : Node → Node}
    (he : heap.Each (Numbered k)) (hg : writeUnlessNull heap p f = some g) (hf : ∀ n, (f n).threadInfo = n.threadInfo) :
    g.Each (Numbered k) := by
  cases p with
  | none =>
    obtain rfl := Option.some.inj hg
    exact he
  | some a =>
    apply he.modify hg
    intro n hn
    unfold Numbered
    rw [hf]
    exact hn

theorem each_threadListDelete {heap g : Heap Node} {k : Nat} {arg : Addr} (he : heap.Each (Numbered k))
    (hg : threadListDelete heap arg = some g) : g.Each (Numbered k) := by
  unfold threadListDelete at hg
  obtain ⟨node, -, hg⟩ := Option.bind_eq_some_iff.1 hg
  obtain ⟨heap₁, h₁, hg⟩ := Option.bind_eq_some_iff.1 hg
  obtain ⟨node', -, hg⟩ := Option.bind_eq_some_iff.1 hg
  obtain ⟨heap₂, h₂, hg⟩ := Option.bind_eq_some_iff.1 hg
  have he₁ := each_writeUnlessNull he h₁ fun _ => rfl
  have he₂ := each_writeUnlessNull he₁ h₂ fun _ => rfl
  exact he₂.free hg

/-! ## The books -/

/-- What holds of the books in every run: `thread_cur` is the number of threads ever created. -/
structure Counted (s : Server) : Prop where
  cur : s.threadCur = s.created
  numbered : s.heap.Each (Numbered s.created)
  joined : ∀ thread ∈ s.joined, thread < s.created

theorem counted_start : Counted start where
  cur := rfl
  numbered _ _ h := nomatch h
  joined _ h := nomatch h

theorem Counted.recv {info : Int} {clientAddr : SockaddrIn} {new : Addr} {raw : Option Addr} (h : Counted s)
    (hs : step s (.recv info clientAddr new raw) = some t) : Counted t := by
  obtain ⟨-, ⟨-, rfl⟩ | ⟨-, -, m, hm, rfl⟩ | ⟨-, -, rfl⟩⟩ := recv_cases hs
  · exact { h with }
  · obtain ⟨heap, hadd, rfl⟩ := accept_cases hm
    have hnumbered : s.heap.Each (Numbered (s.created + 1)) := h.numbered.mono fun n hn => Nat.lt_succ_of_lt hn
    constructor
    case cur => exact congrArg (· + 1) h.cur
    case numbered => exact each_threadListAdd hnumbered (Nat.lt_succ_self _) hadd
    case joined => exact fun thread hthread => Nat.lt_succ_of_lt (h.joined thread hthread)
  · exact { h with }

theorem Counted.server (h : Counted s) (hs : step s .server = some t) : Counted t := by
  rcases server_cases hs with ⟨-, rfl⟩ | ⟨temp, -, hround⟩
  · exact { h with }
  · obtain ⟨node, hnode, hcreated, hcur, hbooks⟩ := sweepRound_cases hround
    rcases hbooks with ⟨-, hjoined, hdel⟩ | ⟨-, hjoined, hheap⟩
    · constructor
      case cur => rw [hcur, hcreated, h.cur]
      case numbered =>
        rw [hcreated]
        exact each_threadListDelete h.numbered hdel
      case joined =>
        rw [hjoined, hcreated]
        intro thread hthread
        rcases List.mem_append.1 hthread with hthread | hthread
        · exact h.joined thread hthread
        · rw [List.mem_singleton.1 hthread]
          exact h.numbered temp node hnode
    · constructor
      case cur => rw [hcur, hcreated, h.cur]
      case numbered => rw [hcreated, hheap]; exact h.numbered
      case joined => rw [hjoined, hcreated]; exact h.joined

theorem Counted.finish {arg : Addr} (h : Counted s) (hs : step s (.finish arg) = some t) : Counted t := by
  obtain ⟨node, hnode, hheap, hcreated, hcur, hjoined⟩ := finish_cases hs
  constructor
  case cur => rw [hcur, hcreated, h.cur]
  case numbered =>
    rw [hcreated]
    exact h.numbered.modify hheap fun n _ => h.numbered arg node hnode
  case joined => rw [hjoined, hcreated]; exact h.joined

theorem Counted.step {e : Event} (h : Counted s) (hs : step s e = some t) : Counted t := by
  cases e with
  | recv info clientAddr new raw => exact h.recv hs
  | server => exact h.server hs
  | finish arg => exact h.finish hs

/-! ## When the account is right -/

/-- No thread has been joined, and the limit allows the threads created. -/
def Whole (s : Server) : Prop := s.joined = [] ∧ s.created ≤ threadMax

theorem unjoined_of_nil (h : s.joined = []) : unjoined s = s.created := by
  have hall : (List.range s.created).filter (· ∉ s.joined) = List.range s.created := by
    apply List.filter_eq_self.2
    intro thread _
    simp [h]
  rw [unjoined, hall, List.length_range]

/-- A thread joined is missing from the count. -/
theorem unjoined_lt {thread : Nat} (h : Counted s) (hthread : thread ∈ s.joined) : unjoined s < s.created := by
  have hmem : thread ∈ List.range s.created := List.mem_range.2 (h.joined thread hthread)
  have hlt : unjoined s < (List.range s.created).length := by
    apply List.length_filter_lt_length_iff_exists.2
    exact ⟨thread, hmem, by simpa using hthread⟩
  rwa [List.length_range] at hlt

theorem Counted.accounted_iff_whole (h : Counted s) : Accounted s ↔ Whole s := by
  constructor
  · intro hacc
    have hcount := h.cur.symm.trans hacc.count
    refine ⟨?_, h.cur ▸ hacc.bound⟩
    apply List.eq_nil_iff_forall_not_mem.2
    intro thread hthread
    exact Nat.lt_irrefl _ (hcount ▸ unjoined_lt h hthread)
  · rintro ⟨hjoined, hcreated⟩
    constructor
    case count => rw [unjoined_of_nil hjoined, h.cur]
    case bound => rw [h.cur]; exact hcreated
    case ignored =>
      intro info clientAddr new raw t hinfo hs hsame
      obtain ⟨-, ⟨hstop, -⟩ | ⟨-, -, m, hm, rfl⟩ | ⟨-, hfull, -⟩⟩ := recv_cases hs
      · exact absurd hstop hinfo
      · obtain ⟨heap, -, rfl⟩ := accept_cases hm
        exact absurd hsame (Nat.succ_ne_self _)
      · rw [h.cur] at hfull
        exact absurd hcreated (Nat.not_le_of_lt hfull)

theorem whole_step {e : Event} (h : Counted s) (hs : step s e = some t) : Whole t ↔ Whole s ∧ keepsCount s e := by
  cases e with
  | recv info clientAddr new raw =>
    have hcur := h.cur
    obtain ⟨-, ⟨rfl, rfl⟩ | ⟨hinfo, -, m, hm, rfl⟩ | ⟨hinfo, hfull, rfl⟩⟩ := recv_cases hs
    · simp [Whole, keepsCount]
    · obtain ⟨heap, -, rfl⟩ := accept_cases hm
      simp only [Whole, keepsCount, hinfo, false_or, and_assoc, and_congr_right_iff]
      intro _
      omega
    · simp only [Whole, keepsCount, hinfo, false_or]
      omega
  | server =>
    rcases server_cases hs with ⟨hpc, rfl⟩ | ⟨temp, hpc, hround⟩
    · simp [Whole, keepsCount, findsFinished, hpc]
    · obtain ⟨node, hnode, hcreated, -, hbooks⟩ := sweepRound_cases hround
      have hfinds : findsFinished s s.pc ↔ node.threadInfo.threadId ∈ s.finished := by
        simp [findsFinished, hpc, hnode]
      rcases hbooks with ⟨hfin, hjoined, -⟩ | ⟨hfin, hjoined, -⟩
      · simp [Whole, keepsCount, hfinds, hfin, hjoined]
      · simp [Whole, keepsCount, hfinds, hfin, hjoined, hcreated]
  | finish arg =>
    obtain ⟨node, -, -, hcreated, -, hjoined⟩ := finish_cases hs
    simp [Whole, keepsCount, hcreated, hjoined]

/-- **The account is right at every head of the request loop exactly when each head was reached with no thread joined
and no request accepted from the eleventh on.**  The sweep should have taken each joined thread off `thread_cur`. -/
theorem accounted_iff (es : List Event) :
    Run.Always step (fun s => s.pc = .head → Accounted s) start es ↔
      ∀ pre s, pre <+: es → Run.run step start pre = some s → s.pc = .head → Run.Steps step keepsCount start pre := by
  have hexact : ∀ pre s, Run.run step start pre = some s → (Accounted s ↔ Run.Steps step keepsCount start pre) := by
    intro pre s hrun
    have hcounted : Counted s := Run.run_inv (fun _ _ _ h hs => h.step hs) counted_start hrun
    have hwhole := Run.good_iff_steps (fun _ _ _ h hs => h.step hs) (fun _ _ _ h hs => whole_step h hs) pre start s
      counted_start hrun
    have hstart : Whole start := ⟨rfl, Nat.zero_le _⟩
    rw [hcounted.accounted_iff_whole, hwhole, and_iff_right hstart]
  constructor
  · intro hall pre s hpre hrun hhead
    exact (hexact pre s hrun).1 (hall pre s hpre hrun hhead)
  · intro hsteps pre s hpre hrun hhead
    exact (hexact pre s hrun).2 (hsteps pre s hpre hrun hhead)

/-- A request, its thread's return and the sweep that joins it. -/
def served : List Event := [.recv 5 ⟨1, 1⟩ 100 none, .finish 100, .server]

/-- Eleven requests, one after another, each thread joined before the next request: the twelfth is ignored. -/
theorem idle_server_ignores : ∃ s, Run.run step start (List.replicate 11 served).flatten = some s ∧ s.pc = .head ∧
    unjoined s = 0 ∧ s.threadCur = 11 ∧ ¬ Accounted s := by
  refine ⟨_, rfl, rfl, rfl, rfl, ?_⟩
  exact fun h => absurd h.bound (by decide)

end ThreadCreating
end Eltex
