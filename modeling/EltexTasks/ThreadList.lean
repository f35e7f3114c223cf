import EltexTasks.Chain
import EltexTasks.ThreadCreating
/-!
# ThreadList — the list of threads

`thread_list_add` and `thread_list_delete` on a list of any length.  A deletion unlinks any node of a linked list
(`threadListDelete_spec`), and an addition appends a node (`threadListAdd_spec`), except that the first node of a list
keeps what `malloc` found in its `next_node`.
-/
namespace Eltex
namespace ThreadCreating

def threadLinks : Links Node where
  prev := Node.prevNode
  next := Node.nextNode
  setPrev n p := { n with prevNode := p }
  setNext n p := { n with nextNode := p }
  prev_setPrev _ _ := rfl
  next_setPrev _ _ := rfl
  prev_setNext _ _ := rfl
  next_setNext _ _ := rfl

/-- The thread of the node at `a`. -/
def infoAt (heap : Heap Node) (a : Addr) : Option ThreadInfo := (heap.load a).map Node.threadInfo

variable {heap : Heap Node} {p q : Option Addr} {a new : Addr} {as xs ys live : List Addr}

/-! ## Writing to the ends of a list -/

theorem not_mem_left_of_nodup (hnd : (xs ++ a :: ys).Nodup) : a ∉ xs :=
  fun h => (List.nodup_append.1 hnd).2.2 a h a List.mem_cons_self rfl

theorem writeUnlessNull_next (hchain : threadLinks.Chain heap p as q) (hnd : as.Nodup) (r : Option Addr) :
    ∃ g, writeUnlessNull heap (as.getLast?.or none) ({ · with nextNode := r }) = some g ∧ threadLinks.Chain g p as r ∧
      (∀ b, b ∉ as → g.load b = heap.load b) ∧ ∀ b, infoAt g b = infoAt heap b := by
  rw [Option.or_none]
  rcases List.eq_nil_or_concat' as with rfl | ⟨as, last, rfl⟩
  · exact ⟨heap, rfl, trivial, fun _ _ => rfl, fun _ => rfl⟩
  · obtain ⟨node, hnode⟩ := hchain.load (List.mem_append_right as List.mem_cons_self)
    obtain ⟨g, hg, -⟩ := Heap.exists_modify hnode fun n => { n with nextNode := r }
    refine ⟨g, ?_, hchain.setNext (not_mem_left_of_nodup hnd) hg, fun b hb => ?_, fun b => Heap.map_load_modify hg (fun _ => rfl) b⟩
    · rw [List.getLast?_concat]
      exact hg
    · exact Heap.load_modify_ne hg fun heq => hb (heq ▸ List.mem_append_right as List.mem_cons_self)

theorem writeUnlessNull_prev (hchain : threadLinks.Chain heap p as q) (hnd : as.Nodup) (r : Option Addr) :
    ∃ g, writeUnlessNull heap (as.head?.or none) ({ · with prevNode := r }) = some g ∧ threadLinks.Chain g r as q ∧
      (∀ b, b ∉ as → g.load b = heap.load b) ∧ ∀ b, infoAt g b = infoAt heap b := by
  rw [Option.or_none]
  cases as with
  | nil => exact ⟨heap, rfl, trivial, fun _ _ => rfl, fun _ => rfl⟩
  | cons first as =>
    obtain ⟨node, hnode⟩ := hchain.load List.mem_cons_self
    obtain ⟨g, hg, -⟩ := Heap.exists_modify hnode fun n => { n with prevNode := r }
    refine ⟨g, hg, hchain.setPrev (List.nodup_cons.1 hnd).1 hg, fun b hb => ?_, fun b =>
      Heap.map_load_modify hg (fun _ => rfl) b⟩
    exact Heap.load_modify_ne hg fun heq => hb (heq ▸ List.mem_cons_self)

/-! ## Deletion -/

/-- **`thread_list_delete` unlinks any node**: the first, the last, one between two others or the only one. -/
theorem threadListDelete_spec (hchain : threadLinks.Chain heap none (xs ++ a :: ys) none)
    (hnd : (xs ++ a :: ys).Nodup) : ∃ g, threadListDelete heap a = some g ∧ threadLinks.Chain g none (xs ++ ys) none ∧
      ∀ b, b ≠ a → infoAt g b = infoAt heap b := by
  obtain ⟨node, hnode, hprev, hnext⟩ := hchain.middle
  obtain ⟨hndl, hndr, hdisj⟩ := List.nodup_append.1 hnd
  obtain ⟨hanot, hndr⟩ := List.nodup_cons.1 hndr
  have haxs : a ∉ xs := not_mem_left_of_nodup hnd
  have hright : ∀ b ∈ a :: ys, b ∉ xs := fun b hb h => hdisj b h b hb rfl
  rw [Links.chain_append] at hchain
  obtain ⟨hleft, -, hafter⟩ := hchain
  -- the node before skips the deleted one
  obtain ⟨g₁, hg₁, hleft₁, hsame₁, hinfo₁⟩ := writeUnlessNull_next hleft hndl (ys.head?.or none)
  have hnode₁ : g₁.load a = some node := (hsame₁ a haxs).trans hnode
  have hafter₁ : threadLinks.Chain g₁ (some a) ys none :=
    hafter.congr fun b hb => hsame₁ b (hright b (List.mem_cons_of_mem a hb))
  -- and so does the one after
  obtain ⟨g₂, hg₂, hafter₂, hsame₂, hinfo₂⟩ := writeUnlessNull_prev hafter₁ hndr (xs.getLast?.or none)
  have hnode₂ : g₂.load a = some node := (hsame₂ a hanot).trans hnode₁
  have hleft₂ : threadLinks.Chain g₂ none xs (ys.head?.or none) :=
    hleft₁.congr fun b hb => hsame₂ b fun h => hright b (List.mem_cons_of_mem a h) hb
  obtain ⟨g₃, hg₃⟩ := Heap.exists_free (Heap.mem_of_load hnode₂)
  have hprev' : node.prevNode = xs.getLast?.or none := hprev
  have hnext' : node.nextNode = ys.head?.or none := hnext
  refine ⟨g₃, ?_, ?_, fun b hb => ?_⟩
  · simp only [threadListDelete, hnode, hprev', hnext', hg₁, hnode₁, hg₂, hg₃, Option.bind_eq_bind, Option.bind_some]
  · rw [Links.chain_append]
    exact ⟨hleft₂.congr fun b hb => Heap.load_free_ne hg₃ fun heq => haxs (heq ▸ hb),
      hafter₂.congr fun b hb => Heap.load_free_ne hg₃ fun heq => hanot (heq ▸ hb)⟩
  · rw [infoAt, Heap.load_free_ne hg₃ hb, ← infoAt, hinfo₂, hinfo₁]

/-! ## Addition -/

/-- **`thread_list_add` appends a node**; the `next_node` of the first one of a list is what `malloc` found. -/
theorem threadListAdd_spec (hchain : threadLinks.Chain heap none live none) (hnd : live.Nodup) (hnew : new ∉ heap)
    (raw : Option Addr) (info : ThreadInfo) : ∃ g, threadListAdd heap new raw live.getLast? info = some g ∧
      threadLinks.Chain g none (live ++ [new]) (if live = [] then raw else none) := by
  obtain ⟨g₁, hg₁⟩ := Heap.exists_malloc hnew ⟨info, raw, live.getLast?⟩
  have hload₁ := Heap.load_malloc hg₁
  have hfresh : ∀ b ∈ live, b ≠ new := by
    rintro b hb rfl
    obtain ⟨node, hnode⟩ := hchain.load hb
    exact hnew (Heap.mem_of_load hnode)
  have hchain₁ : threadLinks.Chain g₁ none live none :=
    hchain.congr fun b hb => Heap.load_malloc_ne hg₁ (hfresh b hb)
  rcases List.eq_nil_or_concat' live with rfl | ⟨as, last, rfl⟩
  · refine ⟨g₁, ?_, ⟨⟨_, hload₁, rfl, ?_⟩, trivial⟩⟩
    · simpa [threadListAdd] using hg₁
    · simp [threadLinks]
  · have hne : new ≠ last := (hfresh last (by simp)).symm
    obtain ⟨node, hnode, -, hnext⟩ := hchain₁.middle
    obtain ⟨g₂, hg₂, hload₂⟩ := Heap.exists_modify hload₁ fun n => { n with nextNode := node.nextNode }
    have hchain₂ : threadLinks.Chain g₂ none (as ++ [last]) none :=
      hchain₁.congr fun b hb => Heap.load_modify_ne hg₂ (hfresh b hb)
    have hnode₂ : g₂.load last = some node := (Heap.load_modify_ne hg₂ hne.symm).trans hnode
    obtain ⟨g₃, hg₃, -⟩ := Heap.exists_modify hnode₂ fun n => { n with nextNode := some new }
    refine ⟨g₃, ?_, ?_⟩
    · rw [List.getLast?_concat] at hg₁ ⊢
      simp [threadListAdd, hg₁, hnode, hg₂, hg₃]
    · rw [Links.chain_append, List.getLast?_concat, if_neg (by simp)]
      have hload₃ := (Heap.load_modify_ne hg₃ hne).trans hload₂
      refine ⟨hchain₂.setNext (not_mem_left_of_nodup hnd) hg₃, ⟨_, hload₃, ?_, hnext⟩, trivial⟩
      simp [threadLinks]

/-! ## Any sequence of additions and deletions -/

/-- The heap and the nodes of the list, in the order they were added. -/
structure ThreadList where
  heap : Heap Node
  live : List Addr

def emptyList : ThreadList where
  heap := ∅
  live := []

inductive ListOp where
  /-- `new` and `raw` are what `malloc` returns and what it finds there. -/
  | add (new : Addr) (raw : Option Addr) (info : ThreadInfo)
  | delete (arg : Addr)

/-- An addition is given the current tail, a deletion a node of the list. -/
def listStep (s : ThreadList) : ListOp → Option ThreadList
  | .add new raw info =>
    (threadListAdd s.heap new raw s.live.getLast? info).map fun heap => ⟨heap, s.live ++ [new]⟩
  | .delete arg =>
    if arg ∈ s.live then (threadListDelete s.heap arg).map fun heap => ⟨heap, s.live.erase arg⟩ else none

/-- `malloc` returns unused memory, and what is deleted is a node of the list. -/
def possible (s : ThreadList) : ListOp → Prop
  | .add new _ _ => new ∉ s.heap
  | .delete arg => arg ∈ s.live

/-- After `dst->next_node = src->next_node`, of the nodes `u` whose `next_node` was unassigned. -/
def copyNext (u : List Addr) (src dst : Addr) : List Addr := if src ∈ u then dst :: u else u.filter (· ≠ dst)

/-- The nodes whose `next_node` holds what `malloc` found: it has not been assigned, or has been copied from one that
had not. -/
def unassignedAfter (s : ThreadList) : ListOp → List Addr → List Addr
  | .add new _ _, u =>
    match s.live.getLast? with
    | none => new :: u
    | some last => (copyNext u last new).filter (· ≠ last)
  | .delete arg, u =>
    match (s.heap.load arg).bind Node.prevNode with
    | none => u.filter (· ≠ arg)
    | some prev => (copyNext u arg prev).filter (· ≠ arg)

/-- The list and its unassigned fields. -/
def bothStep : ThreadList × List Addr → ListOp → Option (ThreadList × List Addr) := Run.observed listStep unassignedAfter

/-- The nodes are linked in the order they were added, and the deletion of none of them would follow a field that was
not assigned: `thread_list_delete` follows `next_node` where that is not NULL. -/
structure WellLinked (p : ThreadList × List Addr) : Prop where
  chain : threadLinks.Chain p.1.heap none p.1.live none
  nodup : p.1.live.Nodup
  assigned : ∀ arg ∈ p.1.live, arg ∈ p.2 → (p.1.heap.load arg).bind Node.nextNode = none

/-- Memory for the first node of a list holds NULL where `next_node` will be. -/
def findsNull (s : ThreadList) : ListOp → Prop
  | .add _ raw _ => s.live = [] → raw = none
  | .delete _ => True

/-- Only the tail can have a `next_node` that was not assigned. -/
structure Inv (p : ThreadList × List Addr) : Prop where
  chain : threadLinks.Chain p.1.heap none p.1.live none
  nodup : p.1.live.Nodup
  tail : ∀ arg ∈ p.1.live, arg ∈ p.2 → p.1.live.getLast? = some arg

variable {t u : ThreadList × List Addr} {e : ListOp}

theorem Inv.wellLinked (h : Inv t) : WellLinked t where
  chain := h.chain
  nodup := h.nodup
  assigned := by
    intro arg harg hun
    have hlast := h.tail arg harg hun
    obtain ⟨as, has⟩ := List.getLast?_eq_some_iff.1 hlast
    have hchain := h.chain
    rw [has] at hchain
    obtain ⟨node, hnode, -, hnext⟩ := hchain.middle
    rw [hnode]
    exact hnext

theorem mem_copyNext {u : List Addr} {src dst b : Addr} (hb : b ∈ copyNext u src dst) :
    (b = dst ∧ src ∈ u) ∨ (b ∈ u ∧ b ≠ dst) ∨ (b ∈ u ∧ src ∈ u) := by
  unfold copyNext at hb
  split at hb
  next hsrc =>
    rcases List.mem_cons.1 hb with rfl | hb
    · exact .inl ⟨rfl, hsrc⟩
    · exact .inr (.inr ⟨hb, hsrc⟩)
  next => exact .inr (.inl (by simpa using hb))

theorem getLast?_of_delete {b : Addr} (h : (xs ++ a :: ys).getLast? = some b) (hb : b ≠ a) :
    (xs ++ ys).getLast? = some b := by
  rcases List.eq_nil_or_concat' ys with rfl | ⟨ys, last, rfl⟩
  · rw [List.getLast?_concat] at h
    exact absurd (Option.some.inj h).symm hb
  · rw [← List.cons_append, ← List.append_assoc, List.getLast?_concat] at h
    rw [← List.append_assoc, List.getLast?_concat, h]

theorem Inv.add {raw : Option Addr} {info : ThreadInfo} (h : Inv t) (hnew : new ∉ t.1.heap)
    (hraw : t.1.live = [] → raw = none) : ∃ u, bothStep t (.add new raw info) = some u ∧ Inv u := by
  obtain ⟨g, hg, hchain⟩ := threadListAdd_spec h.chain h.nodup hnew raw info
  have hfresh : new ∉ t.1.live := by
    intro hmem
    obtain ⟨node, hnode⟩ := h.chain.load hmem
    exact hnew (Heap.mem_of_load hnode)
  refine ⟨_, by rw [bothStep, Run.observed, listStep, hg]; rfl, ?_⟩
  constructor
  case chain =>
    have hend : (if t.1.live = [] then raw else none) = none := by
      split
      next hnil => exact hraw hnil
      next => rfl
    rw [hend] at hchain
    exact hchain
  case nodup =>
    refine List.nodup_append.2 ⟨h.nodup, List.nodup_singleton new, fun b hb c hc heq => ?_⟩
    exact hfresh (List.mem_singleton.1 hc ▸ heq ▸ hb)
  case tail =>
    intro arg harg hun
    rw [List.getLast?_concat]
    rcases List.mem_append.1 harg with harg | harg
    · -- the old tail was assigned `new`, and no other node was unassigned
      have hne : arg ≠ new := fun heq => hfresh (heq ▸ harg)
      obtain ⟨last, hlast⟩ := Option.ne_none_iff_exists'.1 fun hnone =>
        List.ne_nil_of_mem harg (List.getLast?_eq_none_iff.1 hnone)
      simp only [unassignedAfter, hlast, List.mem_filter, decide_eq_true_eq] at hun
      obtain ⟨hcopied, hnotlast⟩ := hun
      have hold : arg ∈ t.2 := by
        obtain ⟨heq, -⟩ | ⟨hu, -⟩ | ⟨hu, -⟩ := mem_copyNext hcopied
        · exact absurd heq hne
        · exact hu
        · exact hu
      exact absurd (Option.some.inj (hlast.symm.trans (h.tail arg harg hold))).symm hnotlast
    · rw [List.mem_singleton.1 harg]

theorem Inv.delete {arg : Addr} (h : Inv t) (harg : arg ∈ t.1.live) :
    ∃ u, bothStep t (.delete arg) = some u ∧ Inv u := by
  have hlisted := harg
  obtain ⟨xs, ys, hlive⟩ := List.append_of_mem harg
  have hchain := h.chain
  have hnd := h.nodup
  rw [hlive] at hchain hnd
  obtain ⟨g, hg, hchain', -⟩ := threadListDelete_spec hchain hnd
  obtain ⟨node, hnode, hprev, -⟩ := hchain.middle
  have hprev' : (t.1.heap.load arg).bind Node.prevNode = xs.getLast? := by
    rw [hnode]
    exact hprev.trans (Option.or_none)
  have herase : t.1.live.erase arg = xs ++ ys := by
    rw [hlive, List.erase_append_right _ (not_mem_left_of_nodup hnd), List.erase_cons_head]
  refine ⟨_, by rw [bothStep, Run.observed, listStep, if_pos hlisted, hg]; rfl, ?_⟩
  have hnd' : (xs ++ ys).Nodup := (List.nodup_middle.1 hnd).of_cons
  constructor
  case chain => exact herase ▸ hchain'
  case nodup => exact herase ▸ hnd'
  case tail =>
    intro b hb hun
    simp only [herase] at hb ⊢
    have hmem : b ∈ t.1.live := by
      rw [hlive]
      simp only [List.mem_append, List.mem_cons] at hb ⊢
      exact hb.imp_right .inr
    have hold : b ∈ t.2 → b ≠ arg → (xs ++ ys).getLast? = some b := fun hu hne =>
      getLast?_of_delete (hlive ▸ h.tail b hmem hu) hne
    simp only [unassignedAfter, hprev'] at hun
    split at hun
    next =>
      rw [List.mem_filter, decide_eq_true_eq] at hun
      exact hold hun.1 hun.2
    next prev hlast =>
      rw [List.mem_filter, decide_eq_true_eq] at hun
      obtain ⟨rfl, hu⟩ | ⟨hu, -⟩ | ⟨hu, -⟩ := mem_copyNext hun.1
      · -- the deleted node was the tail
        have htail := hlive ▸ h.tail arg harg hu
        rcases List.eq_nil_or_concat' ys with rfl | ⟨ys, last, rfl⟩
        · rw [List.append_nil, hlast]
        · rw [← List.cons_append, ← List.append_assoc, List.getLast?_concat] at htail
          obtain rfl := Option.some.inj htail
          exact absurd (List.mem_append_right ys List.mem_cons_self)
            (List.nodup_cons.1 (List.nodup_append.1 hnd).2.1).1
      · exact hold hu hun.2
      · exact hold hu hun.2

theorem inv_empty : Inv (emptyList, []) where
  chain := trivial
  nodup := List.nodup_nil
  tail := nofun

theorem Inv.step (h : Inv t) (hpossible : possible t.1 e) (hok : findsNull t.1 e) : ∃ u, bothStep t e = some u ∧ Inv u := by
  cases e with
  | add new raw info => exact h.add hpossible hok
  | delete arg => exact h.delete hpossible

theorem possible_of_step (hs : bothStep t e = some u) : possible t.1 e := by
  obtain ⟨s, hs, -⟩ := Option.map_eq_some_iff.1 hs
  cases e with
  | add new raw info =>
    obtain ⟨g, hg, -⟩ := Option.map_eq_some_iff.1 hs
    obtain ⟨g₁, hg₁, -⟩ := Option.bind_eq_some_iff.1 hg
    exact Heap.not_mem_of_malloc hg₁
  | delete arg =>
    by_contra hno
    rw [listStep, if_neg (show arg ∉ t.1.live from hno)] at hs
    cases hs

/-- The first node of a list keeps what `malloc` found. -/
theorem Inv.add_first (h : Inv t) (hpossible : possible t.1 e) (hbad : ¬ findsNull t.1 e) :
    ∃ u, bothStep t e = some u ∧ ¬ WellLinked u := by
  cases e with
  | delete arg => exact absurd trivial hbad
  | add new raw info =>
    obtain ⟨hnil, hraw⟩ : t.1.live = [] ∧ raw ≠ none := by simpa [findsNull] using hbad
    obtain ⟨g, hg, hchain⟩ := threadListAdd_spec h.chain h.nodup hpossible raw info
    refine ⟨_, by rw [bothStep, Run.observed, listStep, hg]; rfl, fun hlinked => ?_⟩
    obtain ⟨⟨node, hnode, -, hnext⟩, -⟩ : threadLinks.Chain g none [new] raw := by
      rw [if_pos hnil, hnil] at hchain
      exact hchain
    obtain ⟨⟨node', hnode', -, hnext'⟩, -⟩ : threadLinks.Chain g none [new] none := by
      have hchain' := hlinked.chain
      simp only [hnil, List.nil_append] at hchain'
      exact hchain'
    obtain rfl := Option.some.inj (hnode.symm.trans hnode')
    exact hraw (hnext.symm.trans hnext')

/-- **The list is well linked after any additions and deletions just when each addition to an empty list finds NULL in
the `next_node` that it does not assign.** -/
theorem thread_list_iff (es : List ListOp) (hes : Run.Steps listStep possible emptyList es) :
    ((∃ t, Run.run bothStep (emptyList, []) es = some t) ∧ Run.Always bothStep WellLinked (emptyList, []) es) ↔
      Run.Steps listStep findsNull emptyList es := by
  have hpossible : Run.Steps bothStep (fun p e => possible p.1 e) (emptyList, []) es := Run.steps_observed.2 hes
  have hiff : Run.Always bothStep WellLinked (emptyList, []) es ↔
      Run.Steps bothStep (fun p e => findsNull p.1 e) (emptyList, []) es := by
    refine Run.always_iff_steps_of_possible Inv (fun s e t h hok hs => ?_) (fun _ h => h.wellLinked)
      (fun s e h hpos hno => h.add_first hpos hno) inv_empty hpossible
    obtain ⟨u, hu, hinv⟩ := h.step (possible_of_step hs) hok
    exact Option.some.inj (hu.symm.trans hs) ▸ hinv
  have hfinds : Run.Steps bothStep (fun p e => findsNull p.1 e) (emptyList, []) es ↔
      Run.Steps listStep findsNull emptyList es := Run.steps_observed
  rw [hiff, ← hfinds]
  refine and_iff_right_of_imp fun hok => ?_
  exact Run.run_defined_of_steps (fun s e h hpos hok => h.step hpos hok) es _ inv_empty hpossible hok

instance (s : ThreadList) : ∀ e, Decidable (possible s e)
  | .add new _ _ => inferInstanceAs (Decidable (new ∉ s.heap))
  | .delete arg => inferInstanceAs (Decidable (arg ∈ s.live))

def idle : ThreadInfo := ⟨0, ⟨0, 0⟩, 0⟩

theorem thread_list_iff_two :
    ((∃ t, Run.run bothStep (emptyList, []) [.add 100 none idle, .add 200 (some 7) idle, .delete 100] = some t) ∧
        Run.Always bothStep WellLinked (emptyList, []) [.add 100 none idle, .add 200 (some 7) idle, .delete 100]) ↔
      Run.Steps listStep findsNull emptyList [.add 100 none idle, .add 200 (some 7) idle, .delete 100] :=
  thread_list_iff [.add 100 none idle, .add 200 (some 7) idle, .delete 100] (by decide +kernel)

/-- The deletion of a thread whose node `malloc` placed where 7 stood writes to the address 7. -/
theorem unassigned_next_followed :
    Run.run bothStep (emptyList, []) [.add 100 (some 7) idle, .delete 100] = none ∧
      ∃ t, Run.run bothStep (emptyList, []) [.add 100 (some 7) idle] = some t ∧ ¬ WellLinked t := by
  refine ⟨by decide +kernel, (Run.run bothStep (emptyList, []) [.add 100 (some 7) idle]).get (by decide +kernel),
    (Option.some_get _).symm, fun h => ?_⟩
  exact absurd (h.assigned 100 (by decide +kernel) (by decide +kernel)) (by decide +kernel)

end ThreadCreating
end Eltex
