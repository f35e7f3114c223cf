import EltexTasks.ThreadCount
import EltexTasks.ThreadList
/-!
# ThreadReplies — whom the server answers

The first eleven requests `thread_creating` receives get a thread each, and no other request ever does.  A thread's
request stays what it was until the thread has answered it, whatever the links of the list are: each of the eleven is
answered at most once, with its own number and to its own sender, and can always be (`answers_first_requests`).  What
the server does after it has followed a link that nothing was written to is undefined and no run.
-/
namespace Eltex
namespace ThreadCreating

open ManCon (SockaddrIn answer)
open Run (run)

def requestOf : Event → Option (Int × SockaddrIn)
  | .recv info clientAddr _ _ => if info = -1 then none else some (info, clientAddr)
  | _ => none

/-- The requests received; `-1` is none. -/
def requests (es : List Event) : List (Int × SockaddrIn) := es.filterMap requestOf

/-- The first `thread_max + 1` of them. -/
def firstRequests (es : List Event) : List (Int × SockaddrIn) := (requests es).take (threadMax + 1)

variable {s t : Server} {es : List Event} {e : Event} {a b : Addr} {heap g : Heap Node}

theorem firstRequests_concat_none (he : requestOf e = none) : firstRequests (es ++ [e]) = firstRequests es := by
  simp [firstRequests, requests, List.filterMap_append, he]

theorem requestOf_recv {info : Int} {clientAddr : SockaddrIn} {new : Addr} {raw : Option Addr} (h : info ≠ -1) :
    requestOf (.recv info clientAddr new raw) = some (info, clientAddr) :=
  if_neg h

theorem firstRequests_concat {q : Int × SockaddrIn} (he : requestOf e = some q) :
    firstRequests (es ++ [e]) =
      if (firstRequests es).length ≤ threadMax then firstRequests es ++ [q] else firstRequests es := by
  have hmore : requests (es ++ [e]) = requests es ++ [q] := by simp [requests, List.filterMap_append, he]
  unfold firstRequests
  rw [hmore, List.length_take]
  split
  · rw [List.take_of_length_le, List.take_of_length_le]
    · omega
    · rw [List.length_append, List.length_singleton]
      omega
  · rw [List.take_append_of_le_length]
    omega

/-! ## Nothing else writes to a thread's request -/

theorem infoAt_writeUnlessNull {p : Option Addr} {f : Node → Node} (hg : writeUnlessNull heap p f = some g)
    (hf : ∀ n, (f n).threadInfo = n.threadInfo) (b : Addr) : infoAt g b = infoAt heap b := by
  cases p with
  | none =>
    obtain rfl := Option.some.inj hg
    rfl
  | some a => exact Heap.map_load_modify hg hf b

theorem infoAt_threadListDelete (hg : threadListDelete heap a = some g) (hb : b ≠ a) :
    infoAt g b = infoAt heap b := by
  unfold threadListDelete at hg
  obtain ⟨node, -, hg⟩ := Option.bind_eq_some_iff.1 hg
  obtain ⟨heap₁, h₁, hg⟩ := Option.bind_eq_some_iff.1 hg
  obtain ⟨node', -, hg⟩ := Option.bind_eq_some_iff.1 hg
  obtain ⟨heap₂, h₂, hg⟩ := Option.bind_eq_some_iff.1 hg
  calc infoAt g b = infoAt heap₂ b := congrArg (Option.map Node.threadInfo) (Heap.load_free_ne hg hb)
    _ = infoAt heap₁ b := infoAt_writeUnlessNull h₂ (fun _ => rfl) b
    _ = infoAt heap b := infoAt_writeUnlessNull h₁ (fun _ => rfl) b

theorem infoAt_freed (hg : threadListDelete heap a = some g) : infoAt g a = none := by
  unfold threadListDelete at hg
  obtain ⟨node, -, hg⟩ := Option.bind_eq_some_iff.1 hg
  obtain ⟨heap₁, -, hg⟩ := Option.bind_eq_some_iff.1 hg
  obtain ⟨node', -, hg⟩ := Option.bind_eq_some_iff.1 hg
  obtain ⟨heap₂, -, hg⟩ := Option.bind_eq_some_iff.1 hg
  rw [infoAt, Heap.load_free hg]
  rfl

/-- The new node is at an address that held none. -/
theorem infoAt_threadListAdd {new : Addr} {raw last : Option Addr} {info : ThreadInfo}
    (hg : threadListAdd heap new raw last info = some g) : infoAt heap new = none ∧ infoAt g new = some info ∧
      ∀ b, b ≠ new → infoAt g b = infoAt heap b := by
  unfold threadListAdd at hg
  obtain ⟨heap₁, h₁, hg⟩ := Option.bind_eq_some_iff.1 hg
  have hfresh : infoAt heap new = none := by
    rw [infoAt, Heap.load, AList.lookup_eq_none.2 (Heap.not_mem_of_malloc h₁)]
    rfl
  have hnew : infoAt heap₁ new = some info := by
    rw [infoAt, Heap.load_malloc h₁]
    rfl
  have hkept : ∀ b, b ≠ new → infoAt heap₁ b = infoAt heap b := fun b hb =>
    congrArg (Option.map Node.threadInfo) (Heap.load_malloc_ne h₁ hb)
  cases last with
  | none =>
    obtain rfl := Option.some.inj hg
    exact ⟨hfresh, hnew, hkept⟩
  | some last =>
    obtain ⟨node, -, hg⟩ := Option.bind_eq_some_iff.1 hg
    obtain ⟨heap₂, h₂, hg⟩ := Option.bind_eq_some_iff.1 hg
    have hlinks : ∀ b, infoAt g b = infoAt heap₁ b := fun b =>
      (Heap.map_load_modify (π := Node.threadInfo) hg (fun _ => rfl) b).trans
        (Heap.map_load_modify (π := Node.threadInfo) h₂ (fun _ => rfl) b)
    exact ⟨hfresh, (hlinks new).trans hnew, fun b hb => (hlinks b).trans (hkept b hb)⟩

/-! ## What a step does -/

theorem sweepRound_keeps (hs : sweepRound s a = some t) : t.finished = s.finished ∧ t.replies = s.replies ∧
    t.created = s.created ∧
    (t.heap = s.heap ∨ ∃ info, infoAt s.heap a = some info ∧ info.threadId ∈ s.finished ∧
      threadListDelete s.heap a = some t.heap) := by
  unfold sweepRound at hs
  obtain ⟨node, hnode, hs⟩ := Option.bind_eq_some_iff.1 hs
  have hinfo : infoAt s.heap a = some node.threadInfo := by
    rw [infoAt, hnode]
    rfl
  by_cases hfin : node.threadInfo.threadId ∈ s.finished
  · simp only [if_pos hfin] at hs
    obtain ⟨heap, hdel, hs⟩ := Option.bind_eq_some_iff.1 hs
    split at hs
    · obtain rfl := Option.some.inj hs
      exact ⟨rfl, rfl, rfl, .inr ⟨_, hinfo, hfin, hdel⟩⟩
    · obtain ⟨next, -, hs⟩ := Option.bind_eq_some_iff.1 hs
      obtain rfl := Option.some.inj hs
      exact ⟨rfl, rfl, rfl, .inr ⟨_, hinfo, hfin, hdel⟩⟩
  · simp only [if_neg hfin] at hs
    obtain rfl := Option.some.inj hs
    exact ⟨rfl, rfl, rfl, .inl rfl⟩

/-- The thread of the node at `a` answers. -/
theorem routineEnd_of_running {info : ThreadInfo} (hinfo : infoAt s.heap a = some info)
    (hrunning : info.threadId ∉ s.finished) : ∃ g, routineEnd s a = some { s with
      heap := g
      finished := s.finished ++ [info.threadId]
      replies := s.replies ++ [(info.threadId, answer info.order, info.clientAddr)] } ∧
    infoAt g a = some { info with order := answer info.order } ∧ ∀ b, b ≠ a → infoAt g b = infoAt s.heap b := by
  obtain ⟨node, hnode, rfl⟩ := Option.map_eq_some_iff.1 hinfo
  obtain ⟨g, hg, hnew⟩ := Heap.exists_modify hnode fun n =>
    { n with threadInfo := { node.threadInfo with order := answer node.threadInfo.order } }
  refine ⟨g, ?_, ?_, fun b hb => congrArg (Option.map Node.threadInfo) (Heap.load_modify_ne hg hb)⟩
  · simp only [routineEnd, hnode, Option.bind_eq_bind, Option.bind_some, if_neg hrunning, hg]
  · rw [infoAt, hnew]
    rfl

theorem running_of_routineEnd (hs : routineEnd s a = some t) : ∃ info, infoAt s.heap a = some info ∧
    info.threadId ∉ s.finished := by
  unfold routineEnd at hs
  obtain ⟨node, hnode, hs⟩ := Option.bind_eq_some_iff.1 hs
  refine ⟨node.threadInfo, by rw [infoAt, hnode]; rfl, fun hfin => ?_⟩
  simp only [if_pos hfin] at hs
  cases hs

/-! ## The requests and the answers -/

/-- The answer to the request `q` of the thread `i`. -/
def replyTo (i : Nat) (q : Int × SockaddrIn) : Nat × Int × SockaddrIn := (i, answer q.1, q.2)

/-- A thread for each of `qs`: it has answered once, or its request is in the heap. -/
structure Serving (qs : List (Int × SockaddrIn)) (s : Server) : Prop where
  counted : Counted s
  created : s.created = qs.length
  finished : s.replies.map Prod.fst = s.finished
  nodup : s.finished.Nodup
  answered : ∀ r ∈ s.replies, ∃ q, qs[r.1]? = some q ∧ r = replyTo r.1 q
  info : ∀ a info, infoAt s.heap a = some info → info.threadId ∉ s.finished →
    qs[info.threadId]? = some (info.order, info.clientAddr)
  running : ∀ i < s.created, i ∉ s.finished → ∃ a info, infoAt s.heap a = some info ∧ info.threadId = i

variable {qs : List (Int × SockaddrIn)}

/-- A step that answers nothing and keeps the memory of the threads that have not. -/
theorem Serving.congr (h : Serving qs s) (hcounted : Counted t) (hcreated : t.created = s.created)
    (hfinished : t.finished = s.finished) (hreplies : t.replies = s.replies)
    (hsub : ∀ b info, infoAt t.heap b = some info → infoAt s.heap b = some info)
    (hkept : ∀ b info, infoAt s.heap b = some info → info.threadId ∉ s.finished → infoAt t.heap b = some info) :
    Serving qs t := by
  refine ⟨hcounted, hcreated.trans h.created, ?_, hfinished ▸ h.nodup, hreplies ▸ h.answered, ?_, ?_⟩
  · rw [hreplies, hfinished, h.finished]
  · intro b info hb hrunning
    exact h.info b info (hsub b info hb) (hfinished ▸ hrunning)
  · intro i hi hrunning
    rw [hfinished] at hrunning
    obtain ⟨b, info, hb, rfl⟩ := h.running i (hcreated ▸ hi) hrunning
    exact ⟨b, info, hkept b info hb hrunning, rfl⟩

/-- A thread is created for the next request. -/
theorem Serving.accept {info : Int} {clientAddr : SockaddrIn} {new : Addr} {raw : Option Addr} (h : Serving qs s)
    (hcounted : Counted t) (hs : accept s info clientAddr new raw = some t) :
    Serving (qs ++ [(info, clientAddr)]) t := by
  obtain ⟨heap, hadd, rfl⟩ := accept_cases hs
  obtain ⟨hfresh, hnew, hkept⟩ := infoAt_threadListAdd hadd
  have hlt : ∀ i ∈ s.finished, i < qs.length := by
    intro i hi
    rw [← h.finished] at hi
    obtain ⟨r, hr, rfl⟩ := List.mem_map.1 hi
    obtain ⟨q, hq, -⟩ := h.answered r hr
    exact (List.getElem?_eq_some_iff.1 hq).1
  have hlast : s.created ∉ s.finished := fun hi => Nat.lt_irrefl _ (h.created ▸ hlt _ hi)
  refine ⟨hcounted, ?_, h.finished, h.nodup, fun r hr => ?_, fun b i hb hrunning => ?_, fun i hi hrunning => ?_⟩
  · rw [List.length_append, ← h.created]
    rfl
  · obtain ⟨q, hq, hreply⟩ := h.answered r hr
    exact ⟨q, List.getElem?_append_left (List.getElem?_eq_some_iff.1 hq).1 ▸ hq, hreply⟩
  · by_cases hbn : b = new
    · subst hbn
      obtain rfl := Option.some.inj (hnew.symm.trans hb)
      show (qs ++ [(info, clientAddr)])[s.created]? = some (info, clientAddr)
      rw [h.created, List.getElem?_concat_length]
    · have hq := h.info b i ((hkept b hbn).symm.trans hb) hrunning
      rw [List.getElem?_append_left (List.getElem?_eq_some_iff.1 hq).1]
      exact hq
  · rcases Nat.lt_succ_iff_lt_or_eq.1 hi with hi | rfl
    · obtain ⟨b, j, hb, rfl⟩ := h.running i hi hrunning
      have hbn : b ≠ new := by
        rintro rfl
        cases hfresh.symm.trans hb
      exact ⟨b, j, (hkept b hbn).trans hb, rfl⟩
    · exact ⟨new, _, hnew, rfl⟩

theorem Serving.sweepRound (h : Serving qs s) (hcounted : Counted t) (hs : sweepRound s a = some t) : Serving qs t := by
  obtain ⟨hfinished, hreplies, hcreated, hheap | ⟨info, hinfo, hfin, hdel⟩⟩ := sweepRound_keeps hs
  · refine h.congr hcounted hcreated hfinished hreplies (fun b i hb => ?_) (fun b i hb _ => ?_)
    · rwa [hheap] at hb
    · rwa [hheap]
  · refine h.congr hcounted hcreated hfinished hreplies (fun b i hb => ?_) (fun b i hb hrunning => ?_)
    · by_cases hba : b = a
      · rw [hba, infoAt_freed hdel] at hb
        cases hb
      · exact (infoAt_threadListDelete hdel hba).symm.trans hb
    · by_cases hba : b = a
      · subst hba
        obtain rfl := Option.some.inj (hinfo.symm.trans hb)
        exact absurd hfin hrunning
      · exact (infoAt_threadListDelete hdel hba).trans hb

theorem Serving.routineEnd (h : Serving qs s) (hcounted : Counted t) (hs : routineEnd s a = some t) : Serving qs t := by
  obtain ⟨info, hinfo, hrunning⟩ := running_of_routineEnd hs
  obtain ⟨g, hend, hnew, hkept⟩ := routineEnd_of_running hinfo hrunning
  obtain rfl := Option.some.inj (hend.symm.trans hs)
  have hq := h.info a info hinfo hrunning
  refine ⟨hcounted, h.created, ?_, ?_, fun r hr => ?_, fun b i hb hi => ?_, fun i hi hnot => ?_⟩
  · rw [List.map_append, h.finished]
    rfl
  · exact List.nodup_append_comm.1 (List.nodup_cons.2 ⟨hrunning, h.nodup⟩)
  · rcases List.mem_append.1 hr with hr | hr
    · exact h.answered r hr
    · rw [List.mem_singleton.1 hr]
      exact ⟨_, hq, rfl⟩
  · by_cases hba : b = a
    · subst hba
      obtain rfl := Option.some.inj (hnew.symm.trans hb)
      exact absurd (List.mem_append_right _ (List.mem_singleton_self _)) hi
    · exact h.info b i ((hkept b hba).symm.trans hb) fun hfin => hi (List.mem_append_left _ hfin)
  · obtain ⟨b, j, hb, rfl⟩ := h.running i hi fun hfin => hnot (List.mem_append_left _ hfin)
    have hba : b ≠ a := by
      rintro rfl
      obtain rfl := Option.some.inj (hinfo.symm.trans hb)
      exact hnot (List.mem_append_right _ (List.mem_singleton_self _))
    exact ⟨b, j, (hkept b hba).trans hb, rfl⟩

theorem Serving.step (h : Serving (firstRequests es) s) (hs : step s e = some t) :
    Serving (firstRequests (es ++ [e])) t := by
  have hcounted := h.counted.step hs
  cases e with
  | recv info clientAddr new raw =>
    obtain ⟨-, ⟨rfl, rfl⟩ | ⟨hinfo, hcur, m, hm, rfl⟩ | ⟨hinfo, hcur, rfl⟩⟩ := recv_cases hs
    · rw [firstRequests_concat_none rfl]
      exact h.congr hcounted rfl rfl rfl (fun _ _ hb => hb) fun _ _ hb _ => hb
    · have hlen : (firstRequests es).length ≤ threadMax := by rwa [← h.created, ← h.counted.cur]
      rw [firstRequests_concat (requestOf_recv hinfo), if_pos hlen]
      have hm' : Counted m := ⟨hcounted.cur, hcounted.numbered, hcounted.joined⟩
      have hserving := h.accept hm' hm
      exact hserving.congr hcounted rfl rfl rfl (fun _ _ hb => hb) fun _ _ hb _ => hb
    · have hlen : ¬ (firstRequests es).length ≤ threadMax := by
        rw [← h.created, ← h.counted.cur]
        exact Nat.not_le_of_lt hcur
      rw [firstRequests_concat (requestOf_recv hinfo), if_neg hlen]
      exact h.congr hcounted rfl rfl rfl (fun _ _ hb => hb) fun _ _ hb _ => hb
  | server =>
    rw [firstRequests_concat_none rfl]
    rcases server_cases hs with ⟨-, rfl⟩ | ⟨temp, -, hround⟩
    · exact h.congr hcounted rfl rfl rfl (fun _ _ hb => hb) fun _ _ hb _ => hb
    · exact h.sweepRound hcounted hround
  | finish arg =>
    rw [firstRequests_concat_none rfl]
    simp only [ThreadCreating.step] at hs
    split at hs
    · cases hs
    · exact h.routineEnd hcounted hs

theorem serving_start : Serving [] start := by
  refine ⟨counted_start, rfl, rfl, List.nodup_nil, fun _ hr => absurd hr List.not_mem_nil, fun a info ha => ?_, ?_⟩
  · cases ha
  · exact fun i hi => absurd hi (Nat.not_lt_zero i)

/-- **Who is answered**: in every run the threads are those of the first eleven requests; an answer is that of one of
these threads, with its request's number and to its request's sender, and no thread answers twice; and until the server
stops, each thread that has not answered can. -/
theorem answers_first_requests (es : List Event) (s : Server) (hrun : run step start es = some s) :
    s.created = (firstRequests es).length ∧ (s.replies.map Prod.fst).Nodup ∧
    (∀ r ∈ s.replies, ∃ q, (firstRequests es)[r.1]? = some q ∧ r = replyTo r.1 q) ∧
    (∀ i q, (firstRequests es)[i]? = some q → i ∉ s.replies.map Prod.fst → s.pc ≠ .stopped →
      ∃ arg t, step s (.finish arg) = some t ∧ t.replies = s.replies ++ [replyTo i q]) := by
  have hstep : ∀ es s e t, Serving (firstRequests es) s → step s e = some t → Serving (firstRequests (es ++ [e])) t :=
    fun _ _ _ _ h hs => h.step hs
  have h := Run.run_inv_events hstep serving_start hrun
  refine ⟨h.created, h.finished ▸ h.nodup, h.answered, fun i q hq hnot hpc => ?_⟩
  rw [h.finished] at hnot
  have hi : i < s.created := h.created ▸ (List.getElem?_eq_some_iff.1 hq).1
  obtain ⟨a, info, hinfo, rfl⟩ := h.running i hi hnot
  obtain ⟨g, hend, -, -⟩ := routineEnd_of_running hinfo hnot
  obtain rfl := Option.some.inj (hq.symm.trans (h.info a info hinfo hnot))
  have hfinish : step s (.finish a) = routineEnd s a := by
    cases hs : s.pc with
    | stopped => exact absurd hs hpc
    | head => simp only [step, hs]
    | sweep iterator => simp only [step, hs]
  exact ⟨a, _, hfinish.trans hend, rfl⟩

/-- Two clients; the second is answered first. -/
def secondFirst : List Event :=
  [.recv 5 ⟨1, 1⟩ 100 none, .server, .server, .recv 7 ⟨1, 2⟩ 200 none, .finish 200, .server]

theorem answers_first_requests_secondFirst : ∃ s, run step start secondFirst = some s ∧
    s.replies.map Prod.fst = [1] ∧
    ∃ arg t, step s (.finish arg) = some t ∧ t.replies = s.replies ++ [replyTo 0 (5, ⟨1, 1⟩)] := by
  obtain ⟨s, hrun, hreplies, hpc⟩ : ∃ s, run step start secondFirst = some s ∧
    s.replies.map Prod.fst = [1] ∧ s.pc = .sweep none := ⟨_, rfl, rfl, rfl⟩
  have hnot : 0 ∉ s.replies.map Prod.fst := by
    rw [hreplies]
    decide
  have hrunning : s.pc ≠ .stopped := by
    rw [hpc]
    decide
  exact ⟨s, hrun, hreplies, (answers_first_requests secondFirst s hrun).2.2.2 0 (5, ⟨1, 1⟩) rfl hnot hrunning⟩

end ThreadCreating
end Eltex
