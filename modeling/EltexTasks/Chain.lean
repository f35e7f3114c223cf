import EltexTasks.Heap
/-!
# Chain — doubly linked lists in a heap (a library)

`Chain h p as q`: the records at the addresses `as` are linked in this order, the first one's previous pointer is `p`
and the last one's next pointer is `q`.  A chain is cut and joined at any place (`chain_append`) and read backwards
(`chain_flip`); it outlives writes and frees elsewhere (`Chain.congr`) and its ends are redirected by one write
(`Chain.setPrev`, `Chain.setNext`).
-/
namespace Eltex

/-- The two pointers of a record and how to write them. -/
structure Links (ν : Type) where
  prev : ν → Option Addr
  next : ν → Option Addr
  setPrev : ν → Option Addr → ν
  setNext : ν → Option Addr → ν
  prev_setPrev : ∀ n p, prev (setPrev n p) = p
  next_setPrev : ∀ n p, next (setPrev n p) = next n
  prev_setNext : ∀ n p, prev (setNext n p) = prev n
  next_setNext : ∀ n p, next (setNext n p) = p

namespace Links

variable {ν : Type} (L : Links ν)

def Chain (h : Heap ν) : Option Addr → List Addr → Option Addr → Prop
  | _, [], _ => True
  | p, a :: as, q => (∃ n, h.load a = some n ∧ L.prev n = p ∧ L.next n = as.head?.or q) ∧ Chain h (some a) as q

/-- The addresses met from `p` along the next pointers; `none` where the walk reads no record or goes on for ever.
In a heap of `fuel` records a walk that ends meets at most that many. -/
def walk (h : Heap ν) : Nat → Option Addr → Option (List Addr)
  | _, none => some []
  | 0, some _ => none
  | fuel + 1, some a => (h.load a).bind fun n => (walk h fuel (L.next n)).map (a :: ·)

variable {L} {h g : Heap ν} {p q r : Option Addr} {a b : Addr} {as bs : List Addr}

theorem chain_append : ∀ (as bs : List Addr) (p q : Option Addr),
    L.Chain h p (as ++ bs) q ↔ L.Chain h p as (bs.head?.or q) ∧ L.Chain h (as.getLast?.or p) bs q
  | [], bs, p, q => by simp [Chain]
  | a :: as, bs, p, q => by
    have ih := chain_append as bs (some a) q
    have hhead : (as ++ bs).head?.or q = as.head?.or (bs.head?.or q) := by rw [List.head?_append, Option.or_assoc]
    have hlast : (a :: as).getLast?.or p = as.getLast?.or (some a) := by
      cases as with
      | nil => rfl
      | cons b as => simp [List.getLast?_cons]
    rw [List.cons_append, Chain, Chain, ih, hhead, hlast, and_assoc]

theorem Chain.load (hc : L.Chain h p as q) (ha : a ∈ as) : ∃ n, h.load a = some n := by
  induction as generalizing p with
  | nil => cases ha
  | cons b as ih =>
    obtain ⟨⟨n, hn, -⟩, hrest⟩ := hc
    rcases List.mem_cons.1 ha with rfl | ha
    · exact ⟨n, hn⟩
    · exact ih hrest ha

/-- The pointers of a record lead to its neighbours. -/
theorem Chain.middle (hc : L.Chain h p (as ++ a :: bs) q) :
    ∃ n, h.load a = some n ∧ L.prev n = as.getLast?.or p ∧ L.next n = bs.head?.or q := by
  rw [chain_append] at hc
  exact hc.2.1

theorem Chain.congr (hc : L.Chain h p as q) (hsame : ∀ a ∈ as, g.load a = h.load a) : L.Chain g p as q := by
  induction as generalizing p with
  | nil => trivial
  | cons a as ih =>
    obtain ⟨⟨n, hn, hlinks⟩, hrest⟩ := hc
    constructor
    · exact ⟨n, (hsame a List.mem_cons_self).trans hn, hlinks⟩
    · exact ih hrest fun b hb => hsame b (List.mem_cons_of_mem a hb)

theorem Chain.neighbours : ∀ {as : List Addr} {p : Option Addr} {i : Nat}, L.Chain h p as q → as[i]? = some a →
    as[i + 1]? = some b → (h.load a).map L.next = some (some b) ∧ (h.load b).map L.prev = some (some a)
  | [], _, _, _, ha, _ => nomatch ha
  | [_], _, _, _, _, hb => nomatch hb
  | c :: d :: as, _, 0, ⟨⟨n, hn, _, hnext⟩, ⟨m, hm, hprev, _⟩, _⟩, ha, hb => by
    obtain rfl := Option.some.inj ha
    obtain rfl := Option.some.inj hb
    rw [hn, hm]
    exact ⟨congrArg some hnext, congrArg some hprev⟩
  | c :: d :: as, _, i + 1, ⟨_, hrest⟩, ha, hb => Chain.neighbours hrest ha hb

theorem walk_chain : ∀ (as : List Addr) (fuel : Nat) (p : Option Addr), L.Chain h p as none → as.length ≤ fuel →
    L.walk h fuel as.head? = some as
  | [], fuel, _, _, _ => by cases fuel <;> rfl
  | a :: as, 0, _, _, hlen => absurd hlen (Nat.not_succ_le_zero _)
  | a :: as, fuel + 1, p, ⟨⟨n, hn, _, hnext⟩, hrest⟩, hlen => by
    rw [Option.or_none] at hnext
    rw [List.head?_cons, walk, hn, Option.bind_some, hnext,
      walk_chain as fuel (some a) hrest (Nat.le_of_succ_le_succ hlen)]
    rfl

/-- A chain is determined by its first record. -/
theorem Chain.unique : ∀ {as bs : List Addr} {p r : Option Addr}, L.Chain h p as none → L.Chain h r bs none →
    as.head? = bs.head? → as = bs
  | [], [], _, _, _, _, _ => rfl
  | [], _ :: _, _, _, _, _, hhead => nomatch hhead
  | _ :: _, [], _, _, _, _, hhead => nomatch hhead
  | a :: as, b :: bs, _, _, ⟨⟨n, hn, _, hnext⟩, hrest⟩, ⟨⟨m, hm, _, hnext'⟩, hrest'⟩, hhead => by
    obtain rfl : a = b := by simpa using hhead
    obtain rfl := Option.some.inj (hn.symm.trans hm)
    rw [Option.or_none] at hnext hnext'
    rw [Chain.unique hrest hrest' (hnext.symm.trans hnext')]

/-- A chain that ends passes no record twice. -/
theorem Chain.nodup : ∀ {as : List Addr} {p : Option Addr}, L.Chain h p as none → as.Nodup
  | [], _, _ => List.nodup_nil
  | a :: as, p, hc => by
    refine List.nodup_cons.2 ⟨fun hmem => ?_, Chain.nodup hc.2⟩
    -- the chain from the second passage on would be the chain from the first
    obtain ⟨xs, ys, rfl⟩ := List.append_of_mem hmem
    have hlater := ((chain_append xs (a :: ys) (some a) none).1 hc.2).2
    have heq := congrArg List.length (Chain.unique hc hlater rfl)
    rw [List.length_cons, List.length_append, List.length_cons] at heq
    omega

/-! ## The other way round -/

/-- The pointers with their roles exchanged. -/
def flip (L : Links ν) : Links ν where
  prev := L.next
  next := L.prev
  setPrev := L.setNext
  setNext := L.setPrev
  prev_setPrev := L.next_setNext
  next_setPrev := L.prev_setNext
  prev_setNext := L.next_setPrev
  next_setNext := L.prev_setPrev

theorem chain_flip : ∀ (as : List Addr) (p q : Option Addr), L.flip.Chain h q as.reverse p ↔ L.Chain h p as q
  | [], _, _ => Iff.rfl
  | a :: as, p, q => by
    rw [List.reverse_cons, chain_append, List.head?_singleton, Option.some_or, chain_flip as (some a) q,
      List.getLast?_reverse, and_comm]
    simp only [Chain, flip, List.head?_nil, Option.none_or, and_true]
    refine and_congr_left fun _ => exists_congr fun n => and_congr_right fun _ => and_comm

/-! ## Redirecting the ends -/

theorem Chain.setPrev (hc : L.Chain h p (a :: as) q) (ha : a ∉ as)
    (hg : h.modify a (fun n => L.setPrev n r) = some g) : L.Chain g r (a :: as) q := by
  obtain ⟨⟨n, hn, -, hnext⟩, hrest⟩ := hc
  have hload := Heap.load_modify_of_load hn hg
  constructor
  · exact ⟨_, hload, L.prev_setPrev n r, (L.next_setPrev n r).trans hnext⟩
  · apply hrest.congr
    intro c hc
    exact Heap.load_modify_ne hg fun heq => ha (heq ▸ hc)

theorem Chain.setNext (hc : L.Chain h p (as ++ [a]) q) (ha : a ∉ as)
    (hg : h.modify a (fun n => L.setNext n r) = some g) : L.Chain g p (as ++ [a]) r := by
  rw [chain_append] at hc ⊢
  obtain ⟨hc, ⟨n, hn, hprev, -⟩, -⟩ := hc
  have hload := Heap.load_modify_of_load hn hg
  constructor
  · apply hc.congr
    intro c hc
    exact Heap.load_modify_ne hg fun heq => ha (heq ▸ hc)
  · exact ⟨⟨_, hload, (L.prev_setNext n r).trans hprev, L.next_setNext n r⟩, trivial⟩

/-! ## Removing a record -/

theorem Chain.unlink {c : Addr} (hc : L.Chain h p (as ++ [a] ++ c :: b :: bs) q)
    (hnd : (as ++ [a] ++ c :: b :: bs).Nodup) (hg : h.modify b (fun n => L.setPrev n (some a)) = some g)
    {k : Heap ν} (hk : g.modify a (fun n => L.setNext n (some b)) = some k) :
    L.Chain k p (as ++ [a] ++ b :: bs) q := by
  rw [chain_append] at hc ⊢
  obtain ⟨hleft, -, hright⟩ := hc
  obtain ⟨hndl, hndr, hdisj⟩ := List.nodup_append.1 hnd
  have ha : a ∉ as := fun h => (List.nodup_append.1 hndl).2.2 a h a (List.mem_singleton_self a) rfl
  have hb : b ∉ bs := (List.nodup_cons.1 (List.nodup_cons.1 hndr).2).1
  rw [List.getLast?_concat, Option.some_or]
  constructor
  · -- the left part ends in the record written second
    have hleft : L.Chain g p (as ++ [a]) (some c) := by
      apply hleft.congr
      intro d hd
      exact Heap.load_modify_ne hg (hdisj d hd b (by simp))
    exact hleft.setNext ha hk
  · have hright := hright.setPrev hb hg
    apply hright.congr
    intro d hd
    exact Heap.load_modify_ne hk (hdisj a (by simp) d (List.mem_cons_of_mem c hd)).symm

end Links
end Eltex
