import Mathlib.Algebra.BigOperators.Group.Finset.Basic
import Mathlib.Algebra.Order.Ring.Int
import EltexTasks.Run
/-!
# Shop — the shop simulation

threads_task/source/shop.c: `shop_task` with the customers and suppliers it starts.  A step is one of the main thread,
or of one customer or supplier: it reads its index, tests the condition of its loop or makes a visit, which the mutex of
the shop makes one step.  A step that would leave an array or the range of `long` cannot happen.
-/
namespace Eltex
namespace Shop

def shopNumber : Nat := 5

def supplierNumber : Nat := 1

def customerNumber : Nat := 3

/-- Where `shop_task` is. -/
inductive MainPc where
  | stock (i : Nat)
  | createCustomer (i : Nat)
  | assignDemand (i : Nat)
  | createSupplier (i : Nat)
  | assignCap (i : Nat)
  | join (i : Nat)
  | done
deriving DecidableEq, Repr

/-- Where a customer or supplier is: before it reads its index, at the condition of its loop, before a visit. -/
inductive Pc where
  | start
  | test (id : Int)
  | visit (id : Int)
  | returned
deriving DecidableEq, Repr

structure State where
  shopStocks : List Int
  demands : List Int
  supplierCaps : List Int
  customersSatisfied : Bool
  customerIds : List Int
  supplierIds : List Int
  main : MainPc
  customers : List Pc
  suppliers : List Pc
deriving DecidableEq, Repr

/-- `shop_task` at its beginning, with what the memory of its two arrays of indices holds. -/
def shopTask (customerIds supplierIds : List Int) : State where
  shopStocks := List.replicate shopNumber 0
  demands := List.replicate customerNumber 0
  supplierCaps := List.replicate supplierNumber 0
  customersSatisfied := false
  customerIds := customerIds
  supplierIds := supplierIds
  main := .stock 0
  customers := []
  suppliers := []

/-- The thread that takes a step, with what `random()` returns in it. -/
inductive Event where
  | main (random : Nat)
  | customer (k random : Nat)
  | supplier (k random newCap : Nat)
deriving DecidableEq, Repr

/-- `arr[i]`; `none` outside the array. -/
def cell (arr : List Int) (i : Int) : Option Int := if 0 ≤ i then arr[i.toNat]? else none

/-- A `long` result; `none` where it overflows. -/
def long (n : Int) : Option Int := if -2 ^ 63 ≤ n ∧ n < 2 ^ 63 then some n else none

theorem eq_of_long {n m : Int} (h : long n = some m) : m = n := by
  unfold long at h
  split at h
  · exact (Option.some.inj h).symm
  · cases h

/-- `random() % n` -/
def randomBelow (random n : Nat) : Int := (random % n : Nat)

/-- Where `shop_task` is after its next statement. -/
def MainPc.next : MainPc → MainPc
  | .stock i => if i + 1 < shopNumber then .stock (i + 1) else .createCustomer 0
  | .createCustomer i => .assignDemand i
  | .assignDemand i => if i + 1 < customerNumber then .createCustomer (i + 1) else .createSupplier 0
  | .createSupplier i => .assignCap i
  | .assignCap i => if i + 1 < supplierNumber then .createSupplier (i + 1) else .join 0
  | .join i => if i + 1 < customerNumber + supplierNumber then .join (i + 1) else .done
  | .done => .done

/-- The next statement of `shop_task`.  Writing an index and creating the thread that reads it are one step. -/
def mainStep (s : State) (random : Nat) : Option State :=
  match s.main with
  | .stock i => some { s with
      shopStocks := s.shopStocks.set i (randomBelow random 1000)
      main := s.main.next }
  | .createCustomer i => some { s with
      customerIds := s.customerIds.set i i
      customers := s.customers ++ [.start]
      main := s.main.next }
  | .assignDemand i => some { s with
      demands := s.demands.set i (randomBelow random 10000)
      main := s.main.next }
  | .createSupplier i => some { s with
      -- the index goes to the customers' array
      customerIds := s.customerIds.set i i
      suppliers := s.suppliers ++ [.start]
      main := s.main.next }
  | .assignCap i => some { s with
      supplierCaps := s.supplierCaps.set i (randomBelow random 1000)
      main := s.main.next }
  | .join i =>
    if (s.customers ++ s.suppliers)[i]? = some .returned then some { s with
      customersSatisfied := if i = customerNumber - 1 then true else s.customersSatisfied
      main := s.main.next }
    else none
  | .done => none

/-- `customer_routine` -/
def customerStep (s : State) (k random : Nat) : Option State :=
  match s.customers[k]? with
  | some .start => s.customerIds[k]?.map fun id => { s with customers := s.customers.set k (.test id) }
  | some (.test id) => (cell s.demands id).map fun (demand : Int) =>
      { s with customers := s.customers.set k (if 0 < demand then .visit id else .returned) }
  | some (.visit id) =>
    let i := random % shopNumber
    (cell s.demands id).bind fun demand => s.shopStocks[i]?.bind fun stock => (long (demand - stock)).map fun demand =>
      { s with
        demands := s.demands.set id.toNat demand
        shopStocks := s.shopStocks.set i 0
        customers := s.customers.set k (.test id) }
  | _ => none

/-- `supplier_routine` -/
def supplierStep (s : State) (k random newCap : Nat) : Option State :=
  match s.suppliers[k]? with
  | some .start => s.supplierIds[k]?.map fun id => { s with suppliers := s.suppliers.set k (.test id) }
  | some (.test id) =>
    some { s with suppliers := s.suppliers.set k (if s.customersSatisfied then .returned else .visit id) }
  | some (.visit id) =>
    let i := random % shopNumber
    (cell s.supplierCaps id).bind fun cap => s.shopStocks[i]?.bind fun stock => (long (stock + cap)).map fun stock =>
      { s with
        shopStocks := s.shopStocks.set i stock
        supplierCaps := s.supplierCaps.set id.toNat (randomBelow newCap 1000)
        suppliers := s.suppliers.set k (.test id) }
  | _ => none

def step (s : State) : Event → Option State
  | .main random => mainStep s random
  | .customer k random => customerStep s k random
  | .supplier k random newCap => supplierStep s k random newCap

/-! ## The books -/

/-- What has been set as initial stocks, delivered, taken by each customer and assigned to each as its demand. -/
structure Books where
  initial : Int
  delivered : Int
  taken : Nat → Int
  assigned : Nat → Option Int

def emptyBooks : Books := { initial := 0, delivered := 0, taken := fun _ => 0, assigned := fun _ => none }

/-- The books are kept from the state before a step and its event. -/
def note (s : State) (e : Event) (g : Books) : Books :=
  match e with
  | .main random =>
    match s.main with
    | .stock _ => { g with initial := g.initial + randomBelow random 1000 }
    | .assignDemand i => { g with assigned := fun j => if j = i then some (randomBelow random 10000) else g.assigned j }
    | _ => g
  | .customer k random =>
    match s.customers[k]? with
    | some (.visit _) =>
      let stock := s.shopStocks[random % shopNumber]?.getD 0
      { g with taken := fun j => g.taken j + if j = k then stock else 0 }
    | _ => g
  | .supplier k _ _ =>
    match s.suppliers[k]? with
    | some (.visit id) => { g with delivered := g.delivered + (cell s.supplierCaps id).getD 0 }
    | _ => g

/-- What all customers have taken. -/
def Books.takenTotal (g : Books) : Int := ∑ i ∈ Finset.range customerNumber, g.taken i

/-- The demand assigned to a customer, 0 before. -/
def Books.demandOf (g : Books) (i : Nat) : Int := (g.assigned i).getD 0

end Shop
end Eltex
