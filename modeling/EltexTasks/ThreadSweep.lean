import Mathlib.Data.List.Chain
import EltexTasks.ThreadCount
import EltexTasks.ThreadList
/-!
# ThreadSweep — the sweep over the threads

The `for` loop that joins the threads that have returned, over a list of any length.  After a deletion the cursor has
already moved to the node before, which the loop's own step then passes over; and the deletion of the first node sets
`thread_list_last` to NULL whatever is left (`swept`).
-/
namespace Eltex
namespace ThreadCreating

/-! ## What the sweep leaves -/

/-- The list behind `thread_list_last` after the sweep of the nodes `rev`, from the last one on, when the nodes `post`
after them have been passed. -/
def swept (done : Addr → Bool) : List Addr → List Addr → List Addr
  | [], post => post
  | [a], post => if done a then [] else a :: post
  | a :: b :: rev, post => if done a then swept done rev (b :: post) else swept done (b :: rev) (a :: post)

/-- The lists that the sweep handles: all of an odd number of threads have returned, or the first one has not and no two
neighbours both have. -/
def sweepsClean (done : Addr → Bool) (as : List Addr) : Prop :=
  (as.length % 2 = 1 ∧ ∀ a ∈ as, done a) ∨
    ((∀ a ∈ as.head?, ¬ done a) ∧ as.IsChain fun a b => ¬ (done a ∧ done b))

variable {done : Addr → Bool}

/-- The nodes passed stay, unless the whole list is lost. -/
theorem subset_swept : ∀ (rev post : List Addr), swept done rev post = [] ∨ post ⊆ swept done rev post
  | [], post => .inr (List.Subset.refl post)
  | [a], post => by
    unfold swept
    split
    · exact .inl rfl
    · exact .inr (List.subset_cons_self a post)
  | a :: b :: rev, post => by
    unfold swept
    split
    · exact (subset_swept rev (b :: post)).imp_right fun h => List.Subset.trans (List.subset_cons_self b post) h
    · exact (subset_swept (b :: rev) (a :: post)).imp_right fun h => List.Subset.trans (List.subset_cons_self a post) h

/-- Where every thread has returned, the list is lost just when the sweep comes to the first one. -/
theorem swept_eq_nil_iff : ∀ (rev post : List Addr), (∀ a ∈ rev, done a = true) → post ≠ [] →
    (swept done rev post = [] ↔ rev.length % 2 = 1)
  | [], post, _, hpost => by simp [swept, hpost]
  | [a], post, hall, _ => by simp [swept, hall a List.mem_cons_self]
  | a :: b :: rev, post, hall, _ => by
    have ih := swept_eq_nil_iff rev (b :: post)
      (fun c hc => hall c (List.mem_cons_of_mem a (List.mem_cons_of_mem b hc))) (List.cons_ne_nil b post)
    rw [swept, if_pos (hall a List.mem_cons_self), ih, List.length_cons, List.length_cons]
    omega

/-- The lists that the sweep handles once a node has been passed, read from the last node. -/
def sweepsRest (done : Addr → Bool) (rev : List Addr) : Prop :=
  (∀ a ∈ rev.getLast?, ¬ done a) ∧ rev.IsChain fun a b => ¬ (done a ∧ done b)

theorem sweepsRest_cons {a : Addr} {rev : List Addr} (ha : done a = false) :
    sweepsRest done (a :: rev) ↔ sweepsRest done rev := by
  unfold sweepsRest
  cases rev with
  | nil => simp [ha]
  | cons b rev => simp [ha, List.getLast?_cons_cons]

theorem sweepsRest_cons_cons {a b : Addr} {rev : List Addr} :
    sweepsRest done (a :: b :: rev) ↔ ¬ (done a ∧ done b) ∧ sweepsRest done (b :: rev) := by
  unfold sweepsRest
  rw [List.getLast?_cons_cons, List.isChain_cons_cons, and_left_comm]

/-- A node that was skipped after its thread had returned is not one of those that should be left. -/
theorem swept_ne_of_skipped {b : Addr} {rev post kept : List Addr} (hb : b ∉ kept) (hkept : kept ≠ []) :
    swept done rev (b :: post) ≠ kept := by
  rintro rfl
  rcases @subset_swept done rev (b :: post) with hnil | hsub
  · exact hkept hnil
  · exact hb (hsub List.mem_cons_self)

/-- **A sweep that has passed a node** leaves what it should just when no returned thread is skipped and the first one
has not returned. -/
theorem swept_eq_iff : ∀ (rev post : List Addr), (rev ++ post).Nodup → post ≠ [] →
    (swept done rev post = rev.reverse.filter (fun a => !done a) ++ post ↔ sweepsRest done rev)
  | [], post, _, _ => by simp [swept, sweepsRest]
  | [a], post, _, hpost => by
    cases ha : done a with
    | false => simp [swept, sweepsRest, ha]
    | true => simp [swept, sweepsRest, ha, Ne.symm hpost]
  | a :: b :: rev, post, hnd, hpost => by
    cases ha : done a with
    | false =>
      have hnd' : ((b :: rev) ++ (a :: post)).Nodup := (List.nodup_middle).2 hnd
      have ih := swept_eq_iff (b :: rev) (a :: post) hnd' (List.cons_ne_nil a post)
      rw [swept, if_neg (by simp [ha]), sweepsRest_cons ha, ← ih, List.reverse_cons, List.filter_append]
      simp [ha]
    | true =>
      have hnd' : (rev ++ (b :: post)).Nodup := (List.nodup_middle).2 (List.nodup_cons.1 hnd).2
      have ih := swept_eq_iff rev (b :: post) hnd' (List.cons_ne_nil b post)
      rw [swept, if_pos ha, sweepsRest_cons_cons]
      cases hb : done b with
      | false =>
        rw [sweepsRest_cons hb, ← ih, and_iff_right (by simp), List.reverse_cons, List.reverse_cons, List.filter_append,
          List.filter_append]
        simp [ha, hb]
      | true =>
        have hbpost : b ∉ post := (List.nodup_cons.1 (List.nodup_append.1 hnd').2.1).1
        refine iff_of_false (swept_ne_of_skipped ?_ (by simp [hpost])) (by simp [ha])
        simp [hb, hbpost]

/-- A thread that has not returned leaves only the second way to handle the list. -/
theorem clean_iff_rest {c : Addr} {rev : List Addr} (hc : c ∈ rev) (hrunning : done c = false) :
    (rev.length % 2 = 1 ∧ ∀ a ∈ rev, done a = true) ∨ sweepsRest done rev ↔ sweepsRest done rev := by
  refine or_iff_right fun h => ?_
  simpa [hrunning] using h.2 c hc

/-- Once a returned thread has been skipped, the sweep can only be right by losing the list. -/
theorem swept_skipped_iff {b : Addr} {rev : List Addr} (hb : done b = true) :
    swept done rev [b] = (rev.reverse.filter fun a => !done a) ↔ rev.length % 2 = 1 ∧ ∀ a ∈ rev, done a = true := by
  by_cases hall : ∀ a ∈ rev, done a = true
  · have hnil : (rev.reverse.filter fun a => !done a) = [] := by
      rw [List.filter_eq_nil_iff]
      intro a ha
      simp [hall a (List.mem_reverse.1 ha)]
    rw [hnil, swept_eq_nil_iff rev [b] hall (List.cons_ne_nil b []), and_iff_left hall]
  · have hne : (rev.reverse.filter fun a => !done a) ≠ [] := by
      rw [ne_eq, List.filter_eq_nil_iff]
      intro h
      exact hall fun a ha => by simpa using h a (List.mem_reverse.2 ha)
    exact iff_of_false (swept_ne_of_skipped (by simp [hb]) hne) fun h => hall h.2

/-- **What the sweep leaves is what it should leave** just where it handles the list. -/
theorem swept_eq_filter_iff {as : List Addr} (hnd : as.Nodup) :
    swept done as.reverse [] = as.filter (fun a => !done a) ↔ sweepsClean done as := by
  obtain ⟨rev, rfl⟩ : ∃ rev : List Addr, as = rev.reverse := ⟨as.reverse, as.reverse_reverse.symm⟩
  have hrest : sweepsRest done rev ↔
      (∀ a ∈ rev.reverse.head?, ¬ done a) ∧ rev.reverse.IsChain fun a b => ¬ (done a ∧ done b) := by
    rw [List.head?_reverse, List.isChain_reverse, sweepsRest]
    simp only [and_comm]
  rw [List.reverse_reverse, sweepsClean, ← hrest, List.length_reverse]
  simp only [List.mem_reverse]
  match rev with
  | [] => simp [swept, sweepsRest]
  | [a] => cases ha : done a <;> simp [swept, sweepsRest, ha]
  | a :: b :: rev =>
    have hnd' : (a :: b :: rev).Nodup := List.nodup_reverse.1 hnd
    cases ha : done a with
    | false =>
      have hpassed := @swept_eq_iff done (b :: rev) [a] (List.nodup_middle.2 (by simpa using hnd'))
        (List.cons_ne_nil a [])
      rw [clean_iff_rest List.mem_cons_self ha, sweepsRest_cons ha, ← hpassed, swept, if_neg (by simp [ha]),
        List.reverse_cons, List.filter_append]
      simp [ha]
    | true =>
      rw [swept, if_pos ha]
      cases hb : done b with
      | false =>
        have hpassed := @swept_eq_iff done rev [b] (List.nodup_middle.2 (by simpa using hnd'.of_cons))
          (List.cons_ne_nil b [])
        rw [clean_iff_rest (List.mem_cons_of_mem a List.mem_cons_self) hb, sweepsRest_cons_cons, sweepsRest_cons hb,
          ← hpassed, and_iff_right (by simp [hb]), List.reverse_cons, List.reverse_cons, List.filter_append,
          List.filter_append]
        simp [ha, hb]
      | true =>
        have hkept : (a :: b :: rev).reverse.filter (fun c => !done c) = rev.reverse.filter fun c => !done c := by
          simp [ha, hb]
        have hodd : (a :: b :: rev).length % 2 = rev.length % 2 := by
          rw [List.length_cons, List.length_cons]
          omega
        rw [hkept, swept_skipped_iff hb, sweepsRest_cons_cons, or_iff_left (by simp [ha, hb]), hodd]
        simp [ha, hb]

/-! ## What the sweep does -/

def isDone (s : Server) (a : Addr) : Bool :=
  match infoAt s.heap a with
  | none => false
  | some info => decide (info.threadId ∈ s.finished)

/-- The sweep has come to the last node of `rev`, with the nodes `post` passed and not deleted. -/
structure Sweeping (done : Addr → Bool) (rev post : List Addr) (s : Server) : Prop where
  pc : s.pc = .sweep rev.head?
  chain : threadLinks.Chain s.heap none (rev.reverse ++ post) none
  last : s.threadListLast = (rev.reverse ++ post).getLast?
  done : ∀ a ∈ rev ++ post, isDone s a = done a

variable {s t : Server} {a b : Addr} {rev post : List Addr}

structure SweepEnd (as : List Addr) (t : Server) : Prop where
  pc : t.pc = .head
  chain : threadLinks.Chain t.heap none as none
  last : t.threadListLast = as.getLast?

theorem Sweeping.node (h : Sweeping done (a :: rev) post s) : ∃ node, s.heap.load a = some node ∧
    node.prevNode = rev.head? ∧ (done a = true ↔ node.threadInfo.threadId ∈ s.finished) := by
  have hchain := h.chain
  rw [List.reverse_cons, List.append_assoc, List.singleton_append] at hchain
  obtain ⟨node, hnode, hprev, -⟩ := hchain.middle
  rw [List.getLast?_reverse, Option.or_none] at hprev
  refine ⟨node, hnode, hprev, ?_⟩
  rw [← h.done a List.mem_cons_self, isDone, infoAt, hnode]
  exact decide_eq_true_iff

theorem Sweeping.finish (h : Sweeping done [] post s) : ∃ t, step s .server = some t ∧ SweepEnd post t := by
  have hpc := h.pc
  refine ⟨{ s with pc := .head }, ?_, rfl, h.chain, h.last⟩
  simp [step, hpc]

theorem Sweeping.pass (h : Sweeping done (a :: rev) post s) (ha : done a = false) :
    ∃ t, step s .server = some t ∧ Sweeping done rev (a :: post) t := by
  obtain ⟨node, hnode, hprev, hdone⟩ := h.node
  have hpc := h.pc
  have hrunning : node.threadInfo.threadId ∉ s.finished := fun hmem => by simp [hdone.2 hmem] at ha
  refine ⟨{ s with pc := .sweep node.prevNode }, ?_, ?_⟩
  · simp [step, hpc, sweepRound, hnode, hrunning]
  · constructor
    case pc => rw [hprev]
    case chain => simpa using h.chain
    case last => simpa using h.last
    case done =>
      intro b hb
      exact h.done b (by simpa [or_left_comm] using hb)

theorem isDone_congr (hinfo : infoAt t.heap b = infoAt s.heap b) (hfinished : t.finished = s.finished) :
    isDone t b = isDone s b := by
  unfold isDone
  rw [hinfo, hfinished]

/-- A thread that has returned is joined; the node before it is passed as well. -/
theorem Sweeping.join (h : Sweeping done (a :: b :: rev) post s) (ha : done a = true) :
    ∃ t, step s .server = some t ∧ Sweeping done rev (b :: post) t := by
  obtain ⟨node, hnode, hprev, hdone⟩ := h.node
  have hpc := h.pc
  have hreturned := hdone.1 ha
  have hchain := h.chain
  have hnd := hchain.nodup
  have hlist : (a :: b :: rev).reverse ++ post = (rev.reverse ++ [b]) ++ a :: post := by simp
  rw [hlist] at hchain hnd
  obtain ⟨g, hg, hchain', hinfo⟩ := threadListDelete_spec hchain hnd
  rw [List.append_assoc, List.singleton_append] at hchain'
  obtain ⟨before, hbefore, hprev', hnext'⟩ := hchain'.middle
  rw [List.getLast?_reverse, Option.or_none] at hprev'
  rw [Option.or_none] at hnext'
  have hprev'' : before.prevNode = rev.head? := hprev'
  have hnext'' : before.nextNode = post.head? := hnext'
  refine ⟨{ s with
    pc := .sweep before.prevNode
    heap := g
    threadListLast := if before.nextNode = none then some b else s.threadListLast
    joined := s.joined ++ [node.threadInfo.threadId] }, ?_, ?_⟩
  · have hprevb : node.prevNode = some b := hprev
    simp [step, hpc, sweepRound, hnode, hreturned, hg, hprevb, hbefore]
  · constructor
    case pc => rw [hprev'']
    case chain => exact hchain'
    case last =>
      -- the node before is the new last one just when the deleted one was
      have hlast := h.last
      rw [hlist] at hlast
      cases post with
      | nil => simp [hnext'']
      | cons c post => simpa [hnext'', List.getLast?_append, List.getLast?_cons] using hlast
    case done =>
      intro c hc
      have hmem : c ∈ (a :: b :: rev) ++ post := by
        simp only [List.mem_append, List.mem_cons] at hc ⊢
        tauto
      have hne : c ≠ a := by
        rintro rfl
        exact (List.nodup_cons.1 (List.nodup_middle.1 hnd)).1 (by simpa [or_assoc, or_left_comm] using hc)
      rw [← h.done c hmem]
      exact isDone_congr (hinfo c hne) rfl

theorem Sweeping.lose (h : Sweeping done [a] post s) (ha : done a = true) :
    ∃ t, step s .server = some t ∧ SweepEnd [] t := by
  obtain ⟨node, hnode, hprev, hdone⟩ := h.node
  have hpc := h.pc
  have hreturned := hdone.1 ha
  have hchain := h.chain
  rw [List.reverse_singleton, ← List.nil_append [a], List.append_assoc, List.singleton_append] at hchain
  obtain ⟨g, hg, -, -⟩ := threadListDelete_spec hchain hchain.nodup
  have hprev' : node.prevNode = none := hprev
  refine ⟨{ s with
    pc := .head, heap := g, threadListLast := none, joined := s.joined ++ [node.threadInfo.threadId] }, ?_, rfl, trivial, rfl⟩
  simp [step, hpc, sweepRound, hnode, hreturned, hg, hprev']

/-- **The sweep ends with `swept`**, after as many rounds as it takes. -/
theorem Sweeping.run : ∀ (rev post : List Addr) (s : Server), Sweeping done rev post s →
    ∃ m t, Run.run step s (List.replicate m .server) = some t ∧ SweepEnd (swept done rev post) t
  | [], post, s, h => by
    obtain ⟨t, hs, hend⟩ := h.finish
    exact ⟨1, t, by simp [hs], hend⟩
  | [a], post, s, h => by
    cases ha : done a with
    | false =>
      obtain ⟨t, hs, hpass⟩ := h.pass ha
      obtain ⟨u, hs', hend⟩ := hpass.finish
      refine ⟨2, u, by simp [List.replicate, hs, hs'], ?_⟩
      rw [swept, if_neg (by simp [ha])]
      exact hend
    | true =>
      obtain ⟨t, hs, hend⟩ := h.lose ha
      refine ⟨1, t, by simp [hs], ?_⟩
      rw [swept, if_pos ha]
      exact hend
  | a :: b :: rev, post, s, h => by
    cases ha : done a with
    | false =>
      obtain ⟨t, hs, hpass⟩ := h.pass ha
      obtain ⟨m, u, hrun, hend⟩ := Sweeping.run (b :: rev) (a :: post) t hpass
      refine ⟨m + 1, u, by rw [List.replicate_succ, Run.run_cons, hs]; exact hrun, ?_⟩
      rw [swept, if_neg (by simp [ha])]
      exact hend
    | true =>
      obtain ⟨t, hs, hjoin⟩ := h.join ha
      obtain ⟨m, u, hrun, hend⟩ := Sweeping.run rev (b :: post) t hjoin
      refine ⟨m + 1, u, by rw [List.replicate_succ, Run.run_cons, hs]; exact hrun, ?_⟩
      rw [swept, if_pos ha]
      exact hend

/-! ## The threads left -/

/-- The list reachable from `thread_list_last` is `kept`, linked in this order, and ends there. -/
structure Keeps (kept : List Addr) (t : Server) : Prop where
  reachable : threadLinks.flip.walk t.heap t.heap.size t.threadListLast = some kept.reverse
  chain : threadLinks.Chain t.heap none kept none
  last : t.threadListLast = kept.getLast?

theorem SweepEnd.keeps_iff {as kept : List Addr} (h : SweepEnd as t) : Keeps kept t ↔ as = kept := by
  constructor
  · intro hkeeps
    have hhead : as.reverse.head? = kept.reverse.head? := by
      rw [List.head?_reverse, List.head?_reverse, ← h.last, ← hkeeps.last]
    have hrev := ((Links.chain_flip as none none).2 h.chain).unique ((Links.chain_flip kept none none).2 hkeeps.chain) hhead
    exact List.reverse_injective hrev
  · rintro rfl
    refine ⟨?_, h.chain, h.last⟩
    have hlen : as.reverse.length ≤ t.heap.size := by
      rw [List.length_reverse]
      refine Heap.length_le_size h.chain.nodup fun a ha => ?_
      obtain ⟨node, hnode⟩ := h.chain.load ha
      rw [hnode]
      rfl
    rw [h.last, ← List.head?_reverse]
    exact Links.walk_chain as.reverse _ none ((Links.chain_flip as none none).2 h.chain) hlen

/-- **After the sweep the list holds the threads that had not returned just when all of an odd number had, or the first
one had not and no two neighbours both had.** -/
theorem thread_sweep_iff (s : Server) (as : List Addr) (hchain : threadLinks.Chain s.heap none as none)
    (hlast : s.threadListLast = as.getLast?) (hpc : s.pc = .sweep s.threadListLast) :
    ∃ m t, Run.run step s (List.replicate m .server) = some t ∧ t.pc = .head ∧
      (Keeps (as.filter fun a => !isDone s a) t ↔ sweepsClean (isDone s) as) := by
  have hstart : Sweeping (isDone s) as.reverse [] s := by
    constructor
    case pc => rw [hpc, hlast, List.head?_reverse]
    case chain => simpa using hchain
    case last => simpa using hlast
    case done => exact fun _ _ => rfl
  obtain ⟨m, t, hrun, hend⟩ := Sweeping.run _ _ s hstart
  refine ⟨m, t, hrun, hend.pc, ?_⟩
  rw [hend.keeps_iff, swept_eq_filter_iff hchain.nodup]

/-- Two threads, the requests of two clients, whose numbers `finished` lists have returned. -/
def twoThreads (finished : List Nat) : Server where
  pc := .sweep (some 200)
  heap := ((∅ : Heap Node).insert 100 ⟨⟨5, ⟨1, 1⟩, 0⟩, some 200, none⟩).insert 200 ⟨⟨6, ⟨2, 2⟩, 1⟩, none, some 100⟩
  threadListLast := some 200
  threadCur := 2
  created := 2
  finished := finished
  joined := []
  replies := []

theorem chain_twoThreads (finished : List Nat) : threadLinks.Chain (twoThreads finished).heap none [100, 200] none :=
  ⟨⟨⟨⟨5, ⟨1, 1⟩, 0⟩, some 200, none⟩, rfl, rfl, rfl⟩, ⟨⟨⟨6, ⟨2, 2⟩, 1⟩, none, some 100⟩, rfl, rfl, rfl⟩, trivial⟩

theorem thread_sweep_iff_second : ∃ m t, Run.run step (twoThreads [1]) (List.replicate m .server) = some t ∧
    t.pc = .head ∧ (Keeps ([100, 200].filter fun a => !isDone (twoThreads [1]) a) t ↔
      sweepsClean (isDone (twoThreads [1])) [100, 200]) :=
  thread_sweep_iff (twoThreads [1]) [100, 200] (chain_twoThreads [1]) rfl rfl

/-- The first of two threads has returned: the other one is forgotten. -/
theorem running_thread_forgotten : threadLinks.Chain (twoThreads [0]).heap none [100, 200] none ∧
    ([100, 200].filter fun a => !isDone (twoThreads [0]) a) = [200] ∧
    ∃ t, Run.run step (twoThreads [0]) [.server, .server] = some t ∧ t.pc = .head ∧ t.threadListLast = none ∧
      ¬ Keeps [200] t := by
  refine ⟨chain_twoThreads [0], by decide +kernel, (Run.run step (twoThreads [0]) [.server, .server]).get
    (by decide +kernel), (Option.some_get _).symm, by decide +kernel, by decide +kernel, fun h => ?_⟩
  exact absurd h.last (by decide +kernel)

end ThreadCreating
end Eltex
