import EltexTasks.ShopGoods
/-!
# ShopStart — the start of the customers and suppliers, and their end

The loop that creates the suppliers writes the index to `customer_ids` and hands over `supplier_ids`, and a customer is
created before its demand is assigned.  So a run goes as meant exactly where the memory of `supplier_ids` happens to
hold the indices and each customer first looks at its demand after the assignment (`startedRight_iff`).
-/
namespace Eltex
namespace Shop

open Run (run observed)

/-- The demand of a customer has been assigned, and it has taken as much. -/
def Books.Met (g : Books) (k : Nat) : Prop := ∃ demand, g.assigned k = some demand ∧ demand ≤ g.taken k

/-- **Everybody works with its own index, in the arrays, and a customer returns satisfied**, and so do all that are
joined. -/
structure StartedRight (p : State × Books) : Prop where
  customersOwn : ∀ k (pc : Pc), p.1.customers[k]? = some pc → pc.Own k
  suppliersOwn : ∀ k (pc : Pc), p.1.suppliers[k]? = some pc → pc.Own k
  capInRange : ∀ (k : Nat) (id : Int), p.1.suppliers[k]? = some (.visit id) → (cell p.1.supplierCaps id).isSome
  returned : ∀ k : Nat, p.1.customers[k]? = some .returned → p.2.Met k
  joined : p.1.main = .done → ∀ k < customerNumber, p.2.Met k

/-- A customer that looks at its demand finds it assigned. -/
def LooksAssigned (s : State) : Event → Prop
  | .customer k _ =>
    match s.customers[k]? with
    | some (.test _) => k < s.main.progress.demandsAssigned
    | _ => True
  | _ => True

/-- Who takes a step finds ready what it reads. -/
def FindsReady (s : State) (e : Event) : Prop := ReadsOwn s e ∧ LooksAssigned s e

/-- A customer that has returned had its demand assigned, and nothing is left of it. -/
def ReturnSatisfied (s : State) : Prop :=
  ∀ k : Nat, s.customers[k]? = some .returned →
    k < s.main.progress.demandsAssigned ∧ ∃ demand, s.demands[k]? = some demand ∧ demand ≤ 0

variable {s t : State} {g : Books} {p q : State × Books} {customerIds supplierIds : List Int} {k random newCap : Nat}
  {e : Event}

instance : ∀ s e, Decidable (LooksAssigned s e)
  | _, .main _ => inferInstanceAs (Decidable True)
  | s, .customer k _ =>
    match h : s.customers[k]? with
    | some (.test _) => decidable_of_iff (k < s.main.progress.demandsAssigned) (by simp only [LooksAssigned, h])
    | some .start => isTrue (by simp only [LooksAssigned, h])
    | some (.visit _) => isTrue (by simp only [LooksAssigned, h])
    | some .returned => isTrue (by simp only [LooksAssigned, h])
    | none => isTrue (by simp only [LooksAssigned, h])
  | _, .supplier _ _ _ => inferInstanceAs (Decidable True)

instance (s : State) (e : Event) : Decidable (FindsReady s e) := inferInstanceAs (Decidable (_ ∧ _))

/-! ## A customer that has returned -/

/-- The main thread leaves the assigned demands alone, and those who have returned. -/
theorem mainStep_assigned (hin : s.main.InLoop) (hs : mainStep s random = some t) :
    s.main.progress.demandsAssigned ≤ t.main.progress.demandsAssigned ∧
      (∀ k < s.main.progress.demandsAssigned, t.demands[k]? = s.demands[k]?) ∧
      ∀ k : Nat, t.customers[k]? = some .returned → s.customers[k]? = some .returned := by
  cases mainStep_moves hin hs with
  | stock hmain =>
    rw [hmain]
    exact ⟨Nat.zero_le _, fun _ _ => rfl, fun _ hk => hk⟩
  | createCustomer hmain _ hafter =>
    rw [hafter, hmain]
    refine ⟨Nat.le_refl _, fun _ _ => rfl, fun k hk => ?_⟩
    rcases getElem?_concat_cases hk with hk | ⟨-, hk⟩
    · exact hk
    · cases hk
  | assignDemand hmain _ hafter =>
    rw [hafter, hmain]
    exact ⟨Nat.le_succ _, fun k hk => List.getElem?_set_ne (Nat.ne_of_gt hk), fun _ hk => hk⟩
  | createSupplier hmain hafter | assignCap hmain hafter | join hmain _ hafter =>
    rw [hafter, hmain]
    exact ⟨Nat.le_refl _, fun _ _ => rfl, fun _ hk => hk⟩

theorem ReturnSatisfied.main (h : ReturnSatisfied s) (hin : s.main.InLoop) (hs : mainStep s random = some t) :
    ReturnSatisfied t := by
  obtain ⟨hle, hdemands, hcust⟩ := mainStep_assigned hin hs
  intro k hk
  obtain ⟨hlt, demand, hdemand, hmet⟩ := h k (hcust k hk)
  exact ⟨Nat.lt_of_lt_of_le hlt hle, demand, (hdemands k hlt).trans hdemand, hmet⟩

theorem ReturnSatisfied.customer (h : ReturnSatisfied s) (hth : Threads s) (hok : LooksAssigned s (.customer k random))
    (hs : customerStep s k random = some t) : ReturnSatisfied t := by
  rcases customerStep_cases hs with ⟨id, hpc, -, rfl⟩ | ⟨id, demand, hpc, hdemand, rfl⟩ |
    ⟨id, demand, stock, hpc, -, -, rfl⟩
  · intro j hj
    rcases getElem?_set_cases hj with ⟨-, heq⟩ | ⟨-, hj⟩
    · cases heq
    · exact h j hj
  · obtain rfl : id = k := hth.customersOwn k _ hpc
    have hlt : k < s.main.progress.demandsAssigned := by simpa only [LooksAssigned, hpc] using hok
    intro j hj
    rcases getElem?_set_cases hj with ⟨rfl, heq⟩ | ⟨-, hj⟩
    · refine ⟨hlt, demand, by rwa [cell_natCast] at hdemand, Int.not_lt.1 fun hpos => ?_⟩
      rw [if_pos hpos] at heq
      cases heq
    · exact h j hj
  · obtain rfl : id = k := hth.customersOwn k _ hpc
    intro j hj
    rcases getElem?_set_cases hj with ⟨-, heq⟩ | ⟨hne, hj⟩
    · cases heq
    · simp only [Int.toNat_natCast, List.getElem?_set_ne (Ne.symm hne)]
      exact h j hj

theorem ReturnSatisfied.supplier (h : ReturnSatisfied s) (hs : supplierStep s k random newCap = some t) :
    ReturnSatisfied t := by
  rcases supplierStep_cases hs with ⟨id, -, -, rfl⟩ | ⟨id, -, rfl⟩ | ⟨id, cap, stock, -, -, -, rfl⟩ <;> exact h

/-- What is left of a demand tells what has been taken of it. -/
theorem Booked.met_of_left (h : Booked (s, g)) (hk : k < s.main.progress.demandsAssigned)
    (hleft : ∃ demand, s.demands[k]? = some demand ∧ demand ≤ 0) : g.Met k := by
  obtain ⟨left, hleft, hmet⟩ := hleft
  obtain ⟨demand, hdemand⟩ := Option.isSome_iff_exists.1 (h.accounts.assigned k hk)
  have hlen : k < customerNumber := by
    rw [← h.accounts.demandsLength]
    exact (List.getElem?_eq_some_iff.1 hleft).1
  rw [h.accounts.account k hlen, Books.demandOf, hdemand, Option.getD_some] at hleft
  obtain rfl := Option.some.inj hleft
  exact ⟨demand, hdemand, Int.le_of_sub_nonpos hmet⟩

/-! ## Runs -/

structure Ready (p : State × Books) : Prop extends Booked p where
  returnSatisfied : ReturnSatisfied p.1

theorem ready_shopTask (h : customerIds.length = customerNumber) :
    Ready (shopTask customerIds supplierIds, emptyBooks) :=
  { booked_shopTask h with returnSatisfied := nofun }

theorem Ready.startedRight (h : Ready p) : StartedRight p where
  customersOwn := h.threads.customersOwn
  suppliersOwn := h.threads.suppliersOwn
  capInRange := by
    intro k id hpc
    obtain ⟨hk, -⟩ := h.threads.stocksSet_of_supplier hpc
    obtain rfl : id = k := h.threads.suppliersOwn k _ hpc
    rw [cell_natCast, Option.isSome_iff_ne_none, ne_eq, List.getElem?_eq_none_iff, h.goods.capsLength]
    exact Nat.not_le.2 hk
  returned := by
    intro k hk
    obtain ⟨hlt, hleft⟩ := h.returnSatisfied k hk
    exact h.toBooked.met_of_left hlt hleft
  joined := by
    intro hdone k hk
    have hjoined : k < p.1.main.progress.joined := by
      rw [hdone]
      exact Nat.lt_add_right supplierNumber hk
    obtain ⟨hlt, hleft⟩ := h.returnSatisfied k (h.threads.joined k hjoined hk)
    exact h.toBooked.met_of_left hlt hleft

theorem Ready.step (h : Ready p) (hok : FindsReady p.1 e) (hs : observed step note p e = some q) : Ready q := by
  refine { h.toBooked.step hok.1 hs with returnSatisfied := ?_ }
  obtain ⟨t, ht, rfl⟩ := Option.map_eq_some_iff.1 hs
  cases e with
  | main random => exact h.returnSatisfied.main h.threads.inLoop ht
  | customer k random => exact h.returnSatisfied.customer h.threads hok.2 ht
  | supplier k random newCap => exact h.returnSatisfied.supplier ht

/-- A supplier that reads another index works with it. -/
theorem not_startedRight_of_reads (hok : ¬ ReadsOwn p.1 e) (hs : observed step note p e = some q) :
    ¬ StartedRight q := by
  obtain ⟨t, ht, rfl⟩ := Option.map_eq_some_iff.1 hs
  cases e with
  | main random => exact absurd trivial hok
  | customer k random => exact absurd trivial hok
  | supplier k random newCap =>
    obtain ⟨hpc, hne⟩ := Classical.not_imp.1 hok
    have hlt := (List.getElem?_eq_some_iff.1 hpc).1
    intro hright
    rcases supplierStep_cases ht with ⟨id, -, hid, rfl⟩ | ⟨id, hpc', rfl⟩ | ⟨id, cap, stock, hpc', -, -, rfl⟩
    · have hown : id = k := hright.suppliersOwn k _ (List.getElem?_set_self hlt)
      exact hne (hown ▸ hid)
    · cases hpc.symm.trans hpc'
    · cases hpc.symm.trans hpc'

/-- A customer that looks too early finds 0 and returns. -/
theorem not_startedRight_of_looks (h : Booked p) (hok : ¬ LooksAssigned p.1 e)
    (hs : observed step note p e = some q) : ¬ StartedRight q := by
  obtain ⟨t, ht, rfl⟩ := Option.map_eq_some_iff.1 hs
  cases e with
  | main random => exact absurd trivial hok
  | supplier k random newCap => exact absurd trivial hok
  | customer k random =>
    intro hright
    rcases customerStep_cases ht with ⟨id, hpc, -, -⟩ | ⟨id, demand, hpc, hdemand, rfl⟩ |
      ⟨id, demand, stock, hpc, -, -, -⟩
    · simp only [LooksAssigned, hpc, not_true_eq_false] at hok
    · simp only [LooksAssigned, hpc, Nat.not_lt] at hok
      obtain ⟨hk, -⟩ := h.threads.stocksSet_of_customer hpc
      obtain rfl : id = k := h.threads.customersOwn k _ hpc
      obtain ⟨hnone, htaken⟩ := h.accounts.notAssigned k hok
      rw [cell_natCast, h.accounts.account k hk, Books.demandOf, hnone, htaken] at hdemand
      obtain rfl := Option.some.inj hdemand
      have hlt := (List.getElem?_eq_some_iff.1 hpc).1
      obtain ⟨demand, hassigned, -⟩ := hright.returned k (List.getElem?_set_self hlt)
      simp only [note, hpc, hnone] at hassigned
      cases hassigned
    · simp only [LooksAssigned, hpc, not_true_eq_false] at hok

/-- **The shop starts and ends as meant exactly in the runs in which a supplier that reads its index finds its own and
a customer that looks at its demand finds it assigned.** -/
theorem startedRight_iff {es : List Event} (hlen : customerIds.length = customerNumber)
    (h : run (observed step note) (shopTask customerIds supplierIds, emptyBooks) es = some p) :
    Run.Always (observed step note) StartedRight (shopTask customerIds supplierIds, emptyBooks) es ↔
      Run.Steps step FindsReady (shopTask customerIds supplierIds) es := by
  have hsteps :
      Run.Steps (observed step note) (fun p e => FindsReady p.1 e) (shopTask customerIds supplierIds, emptyBooks) es ↔
        Run.Steps step FindsReady (shopTask customerIds supplierIds) es :=
    Run.steps_observed
  rw [← hsteps]
  refine Run.always_iff_steps Ready (fun _ _ _ hp hok hs => hp.step hok hs) (fun _ hp => hp.startedRight) ?_
    (ready_shopTask hlen) h
  intro p e q hp hok hs
  rcases not_and_or.1 hok with hreads | hlooks
  · exact not_startedRight_of_reads hreads hs
  · exact not_startedRight_of_looks hp.toBooked hlooks hs

/-- Three customers shop after their demands are assigned, the supplier reads 0, and all are joined. -/
def joinedRun : List Event :=
  List.replicate 5 (.main 7) ++ [.main 0, .main 5, .main 0, .main 5, .main 0, .main 5, .main 0, .main 100,
    .customer 0 0, .customer 0 0, .customer 0 0, .customer 0 0, .customer 1 0, .customer 1 0, .customer 1 1,
    .customer 1 0, .customer 2 0, .customer 2 0, .customer 2 2, .customer 2 0, .supplier 0 0 0, .main 0, .main 0,
    .main 0, .supplier 0 0 0, .main 0]

/-- Where the memory happens to hold 0 all may go well. -/
theorem startedRight_joinedRun :
    ∃ p, run (observed step note) (shopTask [0, 0, 0] [0], emptyBooks) joinedRun = some p ∧ p.1.main = .done ∧
      (Run.Always (observed step note) StartedRight (shopTask [0, 0, 0] [0], emptyBooks) joinedRun ↔
        Run.Steps step FindsReady (shopTask [0, 0, 0] [0]) joinedRun) ∧
      Run.Steps step FindsReady (shopTask [0, 0, 0] [0]) joinedRun :=
  ⟨_, rfl, rfl, startedRight_iff rfl rfl, by decide⟩

/-- The first customer looks before its demand is assigned, and the supplier reads what the memory held. -/
def earlyRun : List Event :=
  List.replicate 5 (.main 7) ++ [.main 0, .customer 0 0, .customer 0 0, .main 10, .main 0, .main 5, .main 0, .main 3,
    .main 0, .supplier 0 0 0, .supplier 0 0 0]

/-- The customer has returned with nothing of its 10, and the supplier goes to visit with the index 7. -/
theorem not_startedRight_earlyRun :
    ∃ p, run (observed step note) (shopTask [0, 0, 0] [7], emptyBooks) earlyRun = some p ∧
      p.1.customers[0]? = some .returned ∧ p.2.assigned 0 = some 10 ∧ p.2.taken 0 = 0 ∧
      p.1.suppliers[0]? = some (.visit 7) ∧ cell p.1.supplierCaps 7 = none ∧
      ¬ Run.Always (observed step note) StartedRight (shopTask [0, 0, 0] [7], emptyBooks) earlyRun := by
  refine ⟨_, rfl, rfl, rfl, rfl, rfl, rfl, fun h => ?_⟩
  have hown : (7 : Int) = (0 : Nat) := (h earlyRun _ List.prefix_rfl rfl).suppliersOwn 0 (.visit 7) rfl
  cases hown

end Shop
end Eltex
