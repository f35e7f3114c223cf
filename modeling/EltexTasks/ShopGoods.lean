import Mathlib.Algebra.BigOperators.Group.Finset.Piecewise
import EltexTasks.Shop
import EltexTasks.Update
/-!
# ShopGoods — nothing gets lost in the shops

Every visit moves goods between a shop, a customer's account and the suppliers, so the stocks and what the customers
have taken are what was set and delivered (`goods_conserved`).  A customer whose demand is not assigned yet finds it 0
and returns, so the assignment never writes over a demand that goods have been taken from.
-/
namespace Eltex
namespace Shop

open Run (run observed)

/-! ## How far the main thread is -/

/-- The numbers of stocks set, customers created, demands assigned, suppliers created and threads joined. -/
structure Progress where
  stocksSet : Nat
  customersCreated : Nat
  demandsAssigned : Nat
  suppliersCreated : Nat
  joined : Nat

namespace MainPc

def progress : MainPc → Progress
  | .stock i => ⟨i, 0, 0, 0, 0⟩
  | .createCustomer i => ⟨shopNumber, i, i, 0, 0⟩
  | .assignDemand i => ⟨shopNumber, i + 1, i, 0, 0⟩
  | .createSupplier i => ⟨shopNumber, customerNumber, customerNumber, i, 0⟩
  | .assignCap i => ⟨shopNumber, customerNumber, customerNumber, i + 1, 0⟩
  | .join i => ⟨shopNumber, customerNumber, customerNumber, supplierNumber, i⟩
  | .done => ⟨shopNumber, customerNumber, customerNumber, supplierNumber, customerNumber + supplierNumber⟩

/-- The indices its loops use are those of the arrays. -/
def InLoop : MainPc → Prop
  | .stock i => i < shopNumber
  | .createCustomer i => i < customerNumber
  | .assignDemand i => i < customerNumber
  | .createSupplier i => i < supplierNumber
  | .assignCap i => i < supplierNumber
  | .join i => i < customerNumber + supplierNumber
  | .done => True

theorem InLoop.next {m : MainPc} (h : m.InLoop) : m.next.InLoop := by
  cases m with
  | createCustomer i => exact h
  | createSupplier i => exact h
  | done => exact h
  -- the end of a loop is the beginning of the next
  | stock i | assignDemand i | assignCap i | join i =>
    simp only [MainPc.next]
    split
    · assumption
    · simp [InLoop, customerNumber, supplierNumber]

variable {i : Nat}

theorem progress_next_stock (h : i < shopNumber) : (stock i).next.progress = ⟨i + 1, 0, 0, 0, 0⟩ := by
  by_cases hi : i + 1 < shopNumber
  · simp only [next, if_pos hi, progress]
  · obtain rfl : i = 4 := by unfold shopNumber at h hi; omega
    rfl

theorem progress_next_assignDemand (h : i < customerNumber) :
    (assignDemand i).next.progress = ⟨shopNumber, i + 1, i + 1, 0, 0⟩ := by
  by_cases hi : i + 1 < customerNumber
  · simp only [next, if_pos hi, progress]
  · obtain rfl : i = 2 := by unfold customerNumber at h hi; omega
    rfl

theorem progress_next_assignCap (h : i < supplierNumber) :
    (assignCap i).next.progress = ⟨shopNumber, customerNumber, customerNumber, i + 1, 0⟩ := by
  by_cases hi : i + 1 < supplierNumber
  · simp only [next, if_pos hi, progress]
  · obtain rfl : i = 0 := by unfold supplierNumber at h hi; omega
    rfl

theorem progress_next_join (h : i < customerNumber + supplierNumber) :
    (join i).next.progress = ⟨shopNumber, customerNumber, customerNumber, supplierNumber, i + 1⟩ := by
  by_cases hi : i + 1 < customerNumber + supplierNumber
  · simp only [next, if_pos hi, progress]
  · obtain rfl : i = 3 := by unfold customerNumber supplierNumber at h hi; omega
    rfl

variable {m : MainPc} {k : Nat}

theorem InLoop.of_customersCreated (h : m.InLoop) (hk : k < m.progress.customersCreated) :
    k < customerNumber ∧ m.progress.stocksSet = shopNumber := by
  cases m <;> simp only [progress, InLoop, and_true] at h hk ⊢ <;> omega

theorem InLoop.of_suppliersCreated (h : m.InLoop) (hk : k < m.progress.suppliersCreated) :
    k < supplierNumber ∧ m.progress.stocksSet = shopNumber := by
  cases m <;> simp only [progress, InLoop, and_true] at h hk ⊢ <;> omega

end MainPc

/-- The index a thread has read is its own. -/
def Pc.Own (k : Nat) : Pc → Prop
  | .test id => id = k
  | .visit id => id = k
  | _ => True

/-- The threads and the main thread: what has been created, read and joined. -/
structure Threads (s : State) : Prop where
  inLoop : s.main.InLoop
  customersCreated : s.customers.length = s.main.progress.customersCreated
  suppliersCreated : s.suppliers.length = s.main.progress.suppliersCreated
  idsLength : s.customerIds.length = customerNumber
  ids : ∀ k < s.customers.length, s.customerIds[k]? = some (k : Int)
  customersOwn : ∀ k (pc : Pc), s.customers[k]? = some pc → pc.Own k
  suppliersOwn : ∀ k (pc : Pc), s.suppliers[k]? = some pc → pc.Own k
  joined : ∀ k < s.main.progress.joined, k < customerNumber → s.customers[k]? = some .returned

/-- A supplier that reads its index finds its own. -/
def ReadsOwn (s : State) : Event → Prop
  | .supplier k _ _ => s.suppliers[k]? = some .start → s.supplierIds[k]? = some (k : Int)
  | _ => True

instance : ∀ s e, Decidable (ReadsOwn s e)
  | _, .main _ => inferInstanceAs (Decidable True)
  | _, .customer _ _ => inferInstanceAs (Decidable True)
  | s, .supplier k _ _ =>
    inferInstanceAs (Decidable (s.suppliers[k]? = some .start → s.supplierIds[k]? = some (k : Int)))

variable {s t : State} {customerIds supplierIds : List Int}

/-! ## What the main thread does -/

/-- A statement of the main thread, with how far it is after it. -/
inductive MainMoves (s : State) (random : Nat) : State → Prop
  | stock {i : Nat} (pc : s.main = .stock i) (bound : i < shopNumber)
      (after : s.main.next.progress = ⟨i + 1, 0, 0, 0, 0⟩) :
      MainMoves s random { s with shopStocks := s.shopStocks.set i (randomBelow random 1000), main := s.main.next }
  | createCustomer {i : Nat} (pc : s.main = .createCustomer i) (bound : i < customerNumber)
      (after : s.main.next.progress = ⟨shopNumber, i + 1, i, 0, 0⟩) :
      MainMoves s random { s with
        customerIds := s.customerIds.set i i
        customers := s.customers ++ [.start]
        main := s.main.next }
  | assignDemand {i : Nat} (pc : s.main = .assignDemand i) (bound : i < customerNumber)
      (after : s.main.next.progress = ⟨shopNumber, i + 1, i + 1, 0, 0⟩) :
      MainMoves s random { s with demands := s.demands.set i (randomBelow random 10000), main := s.main.next }
  | createSupplier {i : Nat} (pc : s.main = .createSupplier i)
      (after : s.main.next.progress = ⟨shopNumber, customerNumber, customerNumber, i + 1, 0⟩) :
      MainMoves s random { s with
        customerIds := s.customerIds.set i i
        suppliers := s.suppliers ++ [.start]
        main := s.main.next }
  | assignCap {i : Nat} (pc : s.main = .assignCap i)
      (after : s.main.next.progress = ⟨shopNumber, customerNumber, customerNumber, i + 1, 0⟩) :
      MainMoves s random { s with supplierCaps := s.supplierCaps.set i (randomBelow random 1000), main := s.main.next }
  | join {i : Nat} (pc : s.main = .join i) (returned : (s.customers ++ s.suppliers)[i]? = some .returned)
      (after : s.main.next.progress = ⟨shopNumber, customerNumber, customerNumber, supplierNumber, i + 1⟩) :
      MainMoves s random { s with
        customersSatisfied := if i = customerNumber - 1 then true else s.customersSatisfied
        main := s.main.next }

theorem mainStep_moves {random : Nat} (hin : s.main.InLoop) (hs : mainStep s random = some t) :
    MainMoves s random t := by
  unfold mainStep at hs
  cases hmain : s.main with
  | stock i =>
    rw [hmain] at hs hin
    obtain rfl := Option.some.inj hs
    exact hmain ▸ .stock hmain hin (hmain ▸ MainPc.progress_next_stock hin)
  | createCustomer i =>
    rw [hmain] at hs hin
    obtain rfl := Option.some.inj hs
    exact hmain ▸ .createCustomer hmain hin (hmain ▸ rfl)
  | assignDemand i =>
    rw [hmain] at hs hin
    obtain rfl := Option.some.inj hs
    exact hmain ▸ .assignDemand hmain hin (hmain ▸ MainPc.progress_next_assignDemand hin)
  | createSupplier i =>
    rw [hmain] at hs hin
    obtain rfl := Option.some.inj hs
    exact hmain ▸ .createSupplier hmain (hmain ▸ rfl)
  | assignCap i =>
    rw [hmain] at hs hin
    obtain rfl := Option.some.inj hs
    exact hmain ▸ .assignCap hmain (hmain ▸ MainPc.progress_next_assignCap hin)
  | join i =>
    rw [hmain] at hs hin
    simp only [Option.ite_none_right_eq_some, Option.some.injEq] at hs
    obtain ⟨hret, rfl⟩ := hs
    exact hmain ▸ .join hmain hret (hmain ▸ MainPc.progress_next_join hin)
  | done =>
    rw [hmain] at hs
    cases hs

/-! ## The threads -/

theorem threads_shopTask (h : customerIds.length = customerNumber) : Threads (shopTask customerIds supplierIds) where
  inLoop := by
    show 0 < shopNumber
    decide
  customersCreated := rfl
  suppliersCreated := rfl
  idsLength := h
  ids := nofun
  customersOwn := nofun
  suppliersOwn := nofun
  joined := nofun

/-- Writing its own index to the array of indices. -/
theorem getElem?_set_own {ids : List Int} {i k : Nat} (h : ids[k]? = some (k : Int)) :
    (ids.set i (i : Int))[k]? = some (k : Int) := by
  by_cases hik : i = k
  · subst hik
    rw [List.getElem?_set_self (List.getElem?_eq_some_iff.1 h).1]
  · rw [List.getElem?_set_ne hik]
    exact h

theorem own_concat {pcs : List Pc} (h : ∀ k (pc : Pc), pcs[k]? = some pc → pc.Own k) :
    ∀ k (pc : Pc), (pcs ++ [.start])[k]? = some pc → pc.Own k := by
  intro k pc hpc
  rcases getElem?_concat_cases hpc with hpc | ⟨-, rfl⟩
  · exact h k pc hpc
  · trivial

theorem own_set {pcs : List Pc} {i : Nat} {x : Pc} (h : ∀ k (pc : Pc), pcs[k]? = some pc → pc.Own k) (hx : x.Own i) :
    ∀ k (pc : Pc), (pcs.set i x)[k]? = some pc → pc.Own k := by
  intro k pc hpc
  rcases getElem?_set_cases hpc with ⟨rfl, rfl⟩ | ⟨-, hpc⟩
  · exact hx
  · exact h k pc hpc

theorem getElem?_append_returned {pcs qs : List Pc} {k n : Nat} (hk : k < n) (hn : pcs.length = n)
    (h : (pcs ++ qs)[k]? = some .returned) : pcs[k]? = some .returned := by
  rwa [List.getElem?_append_left (hn ▸ hk)] at h

theorem Threads.main (h : Threads s) {random : Nat} (hs : mainStep s random = some t) : Threads t := by
  have hnext := h.inLoop.next
  have hmoves := mainStep_moves h.inLoop hs
  obtain ⟨-, hcust, hsupp, hlen, hids, hcown, hsown, hjoined⟩ := h
  cases hmoves with
  -- the threads stay as they are
  | stock hmain _ hafter | assignDemand hmain _ hafter | assignCap hmain hafter =>
    rw [hmain] at hcust hsupp hjoined
    exact ⟨hnext, hcust.trans (by rw [hafter]; rfl), hsupp.trans (by rw [hafter]; rfl), hlen, hids, hcown, hsown,
      by rw [hafter]; exact hjoined⟩
  | @createCustomer i hmain hi hafter =>
    rw [hmain] at hcust hsupp
    have hlength : (s.customers ++ [Pc.start]).length = i + 1 := by simpa [MainPc.progress] using hcust
    refine ⟨hnext, hlength.trans (by rw [hafter]), hsupp.trans (by rw [hafter]; rfl), by rwa [List.length_set], ?_,
      own_concat hcown, hsown, by rw [hafter]; nofun⟩
    intro k hk
    rw [hlength] at hk
    by_cases hik : k = i
    · subst hik
      exact List.getElem?_set_self (hlen ▸ hi)
    · have hlt : k < s.customers.length := hcust ▸ (show k < i by omega)
      exact getElem?_set_own (hids k hlt)
  | @createSupplier i hmain hafter =>
    rw [hmain] at hcust hsupp
    have hlength : (s.suppliers ++ [Pc.start]).length = i + 1 := by simpa [MainPc.progress] using hsupp
    exact ⟨hnext, hcust.trans (by rw [hafter]; rfl), hlength.trans (by rw [hafter]), by rwa [List.length_set],
      fun k hk => getElem?_set_own (hids k hk), hcown, own_concat hsown, by rw [hafter]; nofun⟩
  | @join i hmain hret hafter =>
    rw [hmain] at hcust hsupp hjoined
    refine ⟨hnext, hcust.trans (by rw [hafter]; rfl), hsupp.trans (by rw [hafter]; rfl), hlen, hids, hcown, hsown, ?_⟩
    rw [hafter]
    intro k hk hkc
    rcases Nat.lt_succ_iff_lt_or_eq.1 hk with hlt | rfl
    · exact hjoined k hlt hkc
    · exact getElem?_append_returned hkc hcust hret

variable {g : Books} {random newCap k : Nat}

theorem note_stock {i : Nat} (h : s.main = .stock i) :
    note s (.main random) g = { g with initial := g.initial + randomBelow random 1000 } := by
  simp only [note, h]

theorem note_assignDemand {i : Nat} (h : s.main = .assignDemand i) : note s (.main random) g =
    { g with assigned := fun j => if j = i then some (randomBelow random 10000) else g.assigned j } := by
  simp only [note, h]

/-! ## What customers and suppliers do -/

theorem customerStep_cases {k random : Nat} (hs : customerStep s k random = some t) :
    (∃ id, s.customers[k]? = some .start ∧ s.customerIds[k]? = some id ∧
      t = { s with customers := s.customers.set k (.test id) }) ∨
    (∃ id demand, s.customers[k]? = some (.test id) ∧ cell s.demands id = some demand ∧
      t = { s with customers := s.customers.set k (if 0 < demand then .visit id else .returned) }) ∨
    ∃ id demand stock, s.customers[k]? = some (.visit id) ∧ cell s.demands id = some demand ∧
      s.shopStocks[random % shopNumber]? = some stock ∧
      t = { s with
        demands := s.demands.set id.toNat (demand - stock)
        shopStocks := s.shopStocks.set (random % shopNumber) 0
        customers := s.customers.set k (.test id) } := by
  unfold customerStep at hs
  split at hs
  · rename_i hpc
    obtain ⟨id, hid, rfl⟩ := Option.map_eq_some_iff.1 hs
    exact Or.inl ⟨id, hpc, hid, rfl⟩
  · rename_i id hpc
    obtain ⟨demand, hdemand, rfl⟩ := Option.map_eq_some_iff.1 hs
    exact Or.inr (Or.inl ⟨id, demand, hpc, hdemand, rfl⟩)
  · rename_i id hpc
    obtain ⟨demand, hdemand, hs⟩ := Option.bind_eq_some_iff.1 hs
    obtain ⟨stock, hstock, hs⟩ := Option.bind_eq_some_iff.1 hs
    obtain ⟨left, hleft, rfl⟩ := Option.map_eq_some_iff.1 hs
    obtain rfl := eq_of_long hleft
    exact Or.inr (Or.inr ⟨id, demand, stock, hpc, hdemand, hstock, rfl⟩)
  · cases hs

theorem supplierStep_cases {k random newCap : Nat} (hs : supplierStep s k random newCap = some t) :
    (∃ id, s.suppliers[k]? = some .start ∧ s.supplierIds[k]? = some id ∧
      t = { s with suppliers := s.suppliers.set k (.test id) }) ∨
    (∃ id, s.suppliers[k]? = some (.test id) ∧
      t = { s with suppliers := s.suppliers.set k (if s.customersSatisfied then .returned else .visit id) }) ∨
    ∃ id cap stock, s.suppliers[k]? = some (.visit id) ∧ cell s.supplierCaps id = some cap ∧
      s.shopStocks[random % shopNumber]? = some stock ∧
      t = { s with
        shopStocks := s.shopStocks.set (random % shopNumber) (stock + cap)
        supplierCaps := s.supplierCaps.set id.toNat (randomBelow newCap 1000)
        suppliers := s.suppliers.set k (.test id) } := by
  unfold supplierStep at hs
  split at hs
  · rename_i hpc
    obtain ⟨id, hid, rfl⟩ := Option.map_eq_some_iff.1 hs
    exact Or.inl ⟨id, hpc, hid, rfl⟩
  · rename_i id hpc
    exact Or.inr (Or.inl ⟨id, hpc, (Option.some.inj hs).symm⟩)
  · rename_i id hpc
    obtain ⟨cap, hcap, hs⟩ := Option.bind_eq_some_iff.1 hs
    obtain ⟨stock, hstock, hs⟩ := Option.bind_eq_some_iff.1 hs
    obtain ⟨sum, hsum, rfl⟩ := Option.map_eq_some_iff.1 hs
    obtain rfl := eq_of_long hsum
    exact Or.inr (Or.inr ⟨id, cap, stock, hpc, hcap, hstock, rfl⟩)
  · cases hs

theorem Threads.customer (h : Threads s) {k random : Nat} (hs : customerStep s k random = some t) : Threads t := by
  -- a joined customer has returned and takes no step
  have hjoin : ∀ (pc x : Pc), s.customers[k]? = some pc → pc ≠ .returned →
      ∀ i < s.main.progress.joined, i < customerNumber → (s.customers.set k x)[i]? = some .returned := by
    intro pc x hpc hne i hi hin
    have hret := h.joined i hi hin
    rw [List.getElem?_set_ne ?_]
    · exact hret
    · rintro rfl
      exact hne (Option.some.inj (hpc.symm.trans hret))
  have hset : ∀ (pc x : Pc), s.customers[k]? = some pc → pc ≠ .returned → x.Own k →
      Threads { s with customers := s.customers.set k x } := fun pc x hpc hne hx =>
    { h with
      customersCreated := by rw [← h.customersCreated]; exact List.length_set
      ids := fun i hi => h.ids i (by rwa [List.length_set] at hi)
      customersOwn := own_set h.customersOwn hx
      joined := hjoin pc x hpc hne }
  rcases customerStep_cases hs with ⟨id, hpc, hid, rfl⟩ | ⟨id, demand, hpc, -, rfl⟩ |
    ⟨id, demand, stock, hpc, -, -, rfl⟩
  · have hlt : k < s.customers.length := (List.getElem?_eq_some_iff.1 hpc).1
    exact hset _ _ hpc (by decide) (Option.some.inj (hid.symm.trans (h.ids k hlt)))
  · have hown : id = k := h.customersOwn k _ hpc
    apply hset _ _ hpc nofun
    split
    · exact hown
    · trivial
  · have hown : id = k := h.customersOwn k _ hpc
    exact { hset _ (.test id) hpc nofun hown with }

theorem Threads.supplier (h : Threads s) {k random newCap : Nat} (hok : ReadsOwn s (.supplier k random newCap))
    (hs : supplierStep s k random newCap = some t) : Threads t := by
  have hset : ∀ (x : Pc), x.Own k → Threads { s with suppliers := s.suppliers.set k x } := fun x hx =>
    { h with
      suppliersCreated := by rw [← h.suppliersCreated]; exact List.length_set
      suppliersOwn := own_set h.suppliersOwn hx }
  rcases supplierStep_cases hs with ⟨id, hpc, hid, rfl⟩ | ⟨id, hpc, rfl⟩ | ⟨id, cap, stock, hpc, -, -, rfl⟩
  · exact hset _ (Option.some.inj (hid.symm.trans (hok hpc)))
  · have hown : id = k := h.suppliersOwn k _ hpc
    apply hset
    split
    · trivial
    · exact hown
  · have hown : id = k := h.suppliersOwn k _ hpc
    exact { hset (.test id) hown with }

theorem Threads.step (h : Threads s) {e : Event} (hok : ReadsOwn s e) (hs : step s e = some t) : Threads t := by
  cases e with
  | main random => exact h.main hs
  | customer k random => exact h.customer hs
  | supplier k random newCap => exact h.supplier hok hs

/-! ## The goods -/

/-- What is in the shops and taken by customers is what was set and delivered. -/
structure Goods (s : State) (g : Books) : Prop where
  stocksLength : s.shopStocks.length = shopNumber
  stocksNonneg : ∀ stock ∈ s.shopStocks, 0 ≤ stock
  capsLength : s.supplierCaps.length = supplierNumber
  capsNonneg : ∀ cap ∈ s.supplierCaps, 0 ≤ cap
  notSet : ∀ i < shopNumber, s.main.progress.stocksSet ≤ i → s.shopStocks[i]? = some 0
  total : s.shopStocks.sum + g.takenTotal = g.initial + g.delivered

theorem randomBelow_nonneg {n : Nat} : 0 ≤ randomBelow random n := Int.natCast_nonneg _

theorem sum_set {xs : List Int} {i : Nat} {x : Int} (y : Int) (h : xs[i]? = some x) :
    (xs.set i y).sum = xs.sum - x + y := by
  obtain ⟨hlt, rfl⟩ := List.getElem?_eq_some_iff.1 h
  rw [List.sum_set', dif_pos hlt]
  omega

theorem nonneg_set {xs : List Int} {i : Nat} {y : Int} (h : ∀ x ∈ xs, 0 ≤ x) (hy : 0 ≤ y) :
    ∀ x ∈ xs.set i y, 0 ≤ x := by
  intro x hx
  rcases List.mem_or_eq_of_mem_set hx with hx | rfl
  · exact h x hx
  · exact hy

theorem nonneg_of_cell {xs : List Int} {i x : Int} (h : ∀ x ∈ xs, 0 ≤ x) (hx : cell xs i = some x) : 0 ≤ x := by
  unfold cell at hx
  split at hx
  · exact h x (List.mem_of_getElem? hx)
  · cases hx

theorem Threads.stocksSet_of_customer {pc : Pc} (h : Threads s) (hpc : s.customers[k]? = some pc) :
    k < customerNumber ∧ s.main.progress.stocksSet = shopNumber := by
  have hlt := (List.getElem?_eq_some_iff.1 hpc).1
  rw [h.customersCreated] at hlt
  exact h.inLoop.of_customersCreated hlt

theorem Threads.stocksSet_of_supplier {pc : Pc} (h : Threads s) (hpc : s.suppliers[k]? = some pc) :
    k < supplierNumber ∧ s.main.progress.stocksSet = shopNumber := by
  have hlt := (List.getElem?_eq_some_iff.1 hpc).1
  rw [h.suppliersCreated] at hlt
  exact h.inLoop.of_suppliersCreated hlt

theorem goods_shopTask : Goods (shopTask customerIds supplierIds) emptyBooks where
  stocksLength := rfl
  stocksNonneg := by
    show ∀ stock ∈ List.replicate shopNumber 0, (0 : Int) ≤ stock
    decide
  capsLength := rfl
  capsNonneg := by
    show ∀ cap ∈ List.replicate supplierNumber 0, (0 : Int) ≤ cap
    decide
  notSet := by
    show ∀ i < shopNumber, 0 ≤ i → (List.replicate shopNumber (0 : Int))[i]? = some 0
    decide
  total := rfl

theorem Goods.main (h : Goods s g) (hin : s.main.InLoop) (hs : mainStep s random = some t) :
    Goods t (note s (.main random) g) := by
  obtain ⟨hlen, hstocks, hcapsLen, hcaps, hset, htotal⟩ := h
  cases mainStep_moves hin hs with
  | @stock i hmain hi hafter =>
    rw [hmain] at hset
    have hsum := sum_set (randomBelow random 1000) (hset i hi (Nat.le_refl i))
    rw [note_stock hmain]
    refine ⟨by rwa [List.length_set], nonneg_set hstocks randomBelow_nonneg, hcapsLen, hcaps, ?_, ?_⟩
    · rw [hafter]
      intro j hj hij
      have hlt : i < j := hij
      rw [List.getElem?_set_ne (Nat.ne_of_lt hlt)]
      exact hset j hj (Nat.le_of_lt hlt)
    · show _ + g.takenTotal = g.initial + randomBelow random 1000 + g.delivered
      rw [hsum]
      omega
  | createCustomer hmain _ hafter | createSupplier hmain hafter | join hmain _ hafter =>
    rw [hmain] at hset
    exact ⟨hlen, hstocks, hcapsLen, hcaps, by rw [hafter]; exact hset, by simpa only [note, hmain] using htotal⟩
  | assignDemand hmain _ hafter =>
    rw [hmain] at hset
    rw [note_assignDemand hmain]
    exact ⟨hlen, hstocks, hcapsLen, hcaps, by rw [hafter]; exact hset, htotal⟩
  | assignCap hmain hafter =>
    rw [hmain] at hset
    exact ⟨hlen, hstocks, by rwa [List.length_set], nonneg_set hcaps randomBelow_nonneg, by rw [hafter]; exact hset,
      by simpa only [note, hmain] using htotal⟩

/-- What is taken by one customer is taken. -/
theorem takenTotal_add (g : Books) (hk : k < customerNumber) (stock : Int) :
    Books.takenTotal { g with taken := fun j => g.taken j + if j = k then stock else 0 } = g.takenTotal + stock := by
  unfold Books.takenTotal
  rw [Finset.sum_add_distrib, Finset.sum_ite_eq' (Finset.range customerNumber) k fun _ => stock,
    if_pos (Finset.mem_range.2 hk)]

theorem Goods.customer (h : Goods s g) (hth : Threads s) (hs : customerStep s k random = some t) :
    Goods t (note s (.customer k random) g) := by
  rcases customerStep_cases hs with ⟨id, hpc, -, rfl⟩ | ⟨id, demand, hpc, -, rfl⟩ |
    ⟨id, demand, stock, hpc, -, hstock, rfl⟩
  · simp only [note, hpc]
    exact { h with }
  · simp only [note, hpc]
    exact { h with }
  · simp only [note, hpc, hstock, Option.getD_some]
    obtain ⟨hk, hset⟩ := hth.stocksSet_of_customer hpc
    have hsum := sum_set 0 hstock
    have htotal := h.total
    refine ⟨by rw [List.length_set]; exact h.stocksLength, nonneg_set h.stocksNonneg (Int.le_refl 0),
      h.capsLength, h.capsNonneg, ?_, ?_⟩
    · intro i hi hle
      exact absurd (hset ▸ hle : shopNumber ≤ i) (Nat.not_le.2 hi)
    · show List.sum _ + Books.takenTotal { g with taken := _ } = g.initial + g.delivered
      rw [hsum, takenTotal_add g hk]
      omega

theorem Goods.supplier (h : Goods s g) (hth : Threads s) (hs : supplierStep s k random newCap = some t) :
    Goods t (note s (.supplier k random newCap) g) := by
  rcases supplierStep_cases hs with ⟨id, hpc, -, rfl⟩ | ⟨id, hpc, rfl⟩ | ⟨id, cap, stock, hpc, hcap, hstock, rfl⟩
  · simp only [note, hpc]
    exact { h with }
  · simp only [note, hpc]
    exact { h with }
  · simp only [note, hpc, hcap, Option.getD_some]
    obtain ⟨-, hset⟩ := hth.stocksSet_of_supplier hpc
    have hsum := sum_set (stock + cap) hstock
    have hstock0 : 0 ≤ stock := h.stocksNonneg stock (List.mem_of_getElem? hstock)
    have hcap0 : 0 ≤ cap := nonneg_of_cell h.capsNonneg hcap
    have htotal := h.total
    refine ⟨by rw [List.length_set]; exact h.stocksLength, nonneg_set h.stocksNonneg (Int.add_nonneg hstock0 hcap0),
      by rw [List.length_set]; exact h.capsLength, nonneg_set h.capsNonneg randomBelow_nonneg, ?_, ?_⟩
    · intro i hi hle
      exact absurd (hset ▸ hle : shopNumber ≤ i) (Nat.not_le.2 hi)
    · show List.sum _ + g.takenTotal = g.initial + (g.delivered + cap)
      rw [hsum]
      omega

/-! ## The customers' accounts -/

/-- A demand is what has been assigned less what its customer has taken, and nobody shops before the assignment. -/
structure Accounts (s : State) (g : Books) : Prop where
  demandsLength : s.demands.length = customerNumber
  account : ∀ i < customerNumber, s.demands[i]? = some (g.demandOf i - g.taken i)
  assigned : ∀ i < s.main.progress.demandsAssigned, (g.assigned i).isSome
  notAssigned : ∀ i, s.main.progress.demandsAssigned ≤ i → g.assigned i = none ∧ g.taken i = 0
  visiting : ∀ k id, s.customers[k]? = some (.visit id) → k < s.main.progress.demandsAssigned

@[simp] theorem cell_natCast {arr : List Int} {i : Nat} : cell arr (i : Int) = arr[i]? := by
  unfold cell
  rw [if_pos (Int.natCast_nonneg i), Int.toNat_natCast]

theorem accounts_shopTask : Accounts (shopTask customerIds supplierIds) emptyBooks where
  demandsLength := rfl
  account := by
    show ∀ i < customerNumber, (List.replicate customerNumber (0 : Int))[i]? = some 0
    decide
  assigned := nofun
  notAssigned := fun _ _ => ⟨rfl, rfl⟩
  visiting := nofun

theorem Accounts.main (h : Accounts s g) (hin : s.main.InLoop) (hs : mainStep s random = some t) :
    Accounts t (note s (.main random) g) := by
  obtain ⟨hlen, hacc, has, hnot, hvis⟩ := h
  cases mainStep_moves hin hs with
  | stock hmain _ hafter =>
    rw [hmain] at has hnot hvis
    rw [note_stock hmain]
    exact ⟨hlen, hacc, by rw [hafter]; exact has, by rw [hafter]; exact hnot, by rw [hafter]; exact hvis⟩
  | createCustomer hmain _ hafter =>
    rw [hmain] at has hnot hvis
    rw [show note s (.main random) g = g by simp only [note, hmain]]
    refine ⟨hlen, hacc, by rw [hafter]; exact has, by rw [hafter]; exact hnot, ?_⟩
    rw [hafter]
    intro k id hk
    rcases getElem?_concat_cases hk with hk | ⟨-, hk⟩
    · exact hvis k id hk
    · cases hk
  | @assignDemand i hmain hi hafter =>
    rw [hmain] at has hnot hvis
    obtain ⟨-, htaken⟩ := hnot i (Nat.le_refl i)
    rw [note_assignDemand hmain]
    refine ⟨by rwa [List.length_set], ?_, ?_, ?_, ?_⟩
    · intro j hj
      by_cases hij : j = i
      · subst hij
        simp [Books.demandOf, htaken, hlen ▸ hj]
      · simp only [List.getElem?_set_ne (Ne.symm hij), Books.demandOf, if_neg hij]
        exact hacc j hj
    · rw [hafter]
      intro j hj
      by_cases hij : j = i
      · simp [hij]
      · simp only [if_neg hij]
        exact has j (Nat.lt_of_le_of_ne (Nat.le_of_lt_succ hj) hij)
    · rw [hafter]
      intro j hj
      have hij : i < j := hj
      simp only [if_neg (Nat.ne_of_gt hij)]
      exact hnot j (Nat.le_of_lt hij)
    · rw [hafter]
      exact fun k id hk => Nat.lt_succ_of_lt (hvis k id hk)
  | createSupplier hmain hafter | assignCap hmain hafter | join hmain _ hafter =>
    rw [hmain] at has hnot hvis
    rw [show note s (.main random) g = g by simp only [note, hmain]]
    exact ⟨hlen, hacc, by rw [hafter]; exact has, by rw [hafter]; exact hnot, by rw [hafter]; exact hvis⟩

theorem Accounts.customer (h : Accounts s g) (hth : Threads s) (hs : customerStep s k random = some t) :
    Accounts t (note s (.customer k random) g) := by
  -- the others stay where they are
  have hset : ∀ x : Pc, (∀ id, x = .visit id → k < s.main.progress.demandsAssigned) → ∀ j id,
      (s.customers.set k x)[j]? = some (.visit id) → j < s.main.progress.demandsAssigned := by
    intro x hx j id hj
    rcases getElem?_set_cases hj with ⟨rfl, heq⟩ | ⟨-, hj⟩
    · exact hx id heq.symm
    · exact h.visiting j id hj
  rcases customerStep_cases hs with ⟨id, hpc, -, rfl⟩ | ⟨id, demand, hpc, hdemand, rfl⟩ |
    ⟨id, demand, stock, hpc, hdemand, hstock, rfl⟩
  · simp only [note, hpc]
    exact { h with visiting := hset _ nofun }
  · obtain ⟨hk, -⟩ := hth.stocksSet_of_customer hpc
    obtain rfl : id = k := hth.customersOwn k _ hpc
    simp only [note, hpc]
    refine { h with visiting := hset _ fun id' hvisit => ?_ }
    by_contra hlt
    -- a demand that is not assigned is 0
    obtain ⟨hnone, htaken⟩ := h.notAssigned k (Nat.le_of_not_lt hlt)
    rw [cell_natCast, h.account k hk, Books.demandOf, hnone, htaken] at hdemand
    obtain rfl := Option.some.inj hdemand
    cases hvisit
  · obtain ⟨hk, -⟩ := hth.stocksSet_of_customer hpc
    obtain rfl : id = k := hth.customersOwn k _ hpc
    have hlt := h.visiting k _ hpc
    rw [cell_natCast, h.account k hk] at hdemand
    obtain rfl := Option.some.inj hdemand
    simp only [note, hpc, hstock, Option.getD_some, Int.toNat_natCast]
    refine ⟨by rw [List.length_set]; exact h.demandsLength, ?_, h.assigned, ?_, hset _ nofun⟩
    · intro j hj
      show _ = some (g.demandOf j - (g.taken j + if j = k then stock else 0))
      by_cases hjk : j = k
      · subst hjk
        rw [List.getElem?_set_self (h.demandsLength ▸ hj), if_pos rfl, Int.sub_sub]
      · rw [List.getElem?_set_ne (Ne.symm hjk), if_neg hjk, Int.add_zero]
        exact h.account j hj
    · intro j hj
      obtain ⟨hnone, htaken⟩ := h.notAssigned j hj
      have hjk : j ≠ k := Nat.ne_of_gt (Nat.lt_of_lt_of_le hlt hj)
      simp only [hnone, htaken, if_neg hjk, Int.add_zero, and_self]

theorem Accounts.supplier (h : Accounts s g) (hs : supplierStep s k random newCap = some t) :
    Accounts t (note s (.supplier k random newCap) g) := by
  rcases supplierStep_cases hs with ⟨id, hpc, -, rfl⟩ | ⟨id, hpc, rfl⟩ | ⟨id, cap, stock, hpc, -, -, rfl⟩ <;>
    simp only [note, hpc] <;> exact { h with }

/-! ## Runs -/

/-- The invariant of the shop with its books. -/
structure Booked (p : State × Books) : Prop where
  threads : Threads p.1
  goods : Goods p.1 p.2
  accounts : Accounts p.1 p.2

theorem booked_shopTask (h : customerIds.length = customerNumber) :
    Booked (shopTask customerIds supplierIds, emptyBooks) :=
  ⟨threads_shopTask h, goods_shopTask, accounts_shopTask⟩

theorem Booked.step {p q : State × Books} {e : Event} (h : Booked p) (hok : ReadsOwn p.1 e)
    (hs : observed step note p e = some q) : Booked q := by
  obtain ⟨t, ht, rfl⟩ := Option.map_eq_some_iff.1 hs
  refine ⟨h.threads.step hok ht, ?_, ?_⟩
  · cases e with
    | main random => exact h.goods.main h.threads.inLoop ht
    | customer k random => exact h.goods.customer h.threads ht
    | supplier k random newCap => exact h.goods.supplier h.threads ht
  · cases e with
    | main random => exact h.accounts.main h.threads.inLoop ht
    | customer k random => exact h.accounts.customer h.threads ht
    | supplier k random newCap => exact h.accounts.supplier ht

/-- **In every state of every run in which the suppliers use their own indices, the stocks and what was taken are what
was set and delivered, no stock is negative, and a demand is what was assigned less what its customer has taken.** -/
theorem goods_conserved {es : List Event} (hlen : customerIds.length = customerNumber)
    (hown : Run.Steps step ReadsOwn (shopTask customerIds supplierIds) es)
    (h : run (observed step note) (shopTask customerIds supplierIds, emptyBooks) es = some (s, g)) :
    s.shopStocks.sum + g.takenTotal = g.initial + g.delivered ∧ (∀ stock ∈ s.shopStocks, 0 ≤ stock) ∧
      ∀ i < customerNumber, s.demands[i]? = some (g.demandOf i - g.taken i) := by
  have hbooked : Booked (s, g) :=
    Run.run_inv_of_steps (fun _ _ _ hp hok hs => hp.step hok hs) es _ _ (booked_shopTask hlen)
      (Run.steps_observed.2 hown) h
  exact ⟨hbooked.goods.total, hbooked.goods.stocksNonneg, hbooked.accounts.account⟩

/-- A customer shops while the others are still created, and the supplier delivers before and after its cap is set. -/
def suppliedRun : List Event :=
  List.replicate 5 (.main 7) ++ [.main 0, .main 10, .customer 0 0, .customer 0 0, .customer 0 2, .main 0, .main 5,
    .main 0, .main 3, .main 0, .supplier 0 0 0, .supplier 0 0 0, .supplier 0 2 50, .main 100, .supplier 0 0 0,
    .supplier 0 2 1, .customer 0 0, .customer 0 2]

/-- The first customer takes the 7 set in a shop and the 100 delivered there after. -/
theorem goods_conserved_suppliedRun :
    ∃ s g, run (observed step note) (shopTask [9, 9, 9] [0], emptyBooks) suppliedRun = some (s, g) ∧
      g.takenTotal = 107 ∧ s.shopStocks.sum + g.takenTotal = g.initial + g.delivered ∧
      (∀ stock ∈ s.shopStocks, 0 ≤ stock) ∧
      ∀ i < customerNumber, s.demands[i]? = some (g.demandOf i - g.taken i) := by
  have hown : Run.Steps step ReadsOwn (shopTask [9, 9, 9] [0]) suppliedRun := by decide
  exact ⟨_, _, rfl, rfl, goods_conserved rfl hown rfl⟩

end Shop
end Eltex
