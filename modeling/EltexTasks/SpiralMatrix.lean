import Mathlib.Algebra.Order.Ring.Int
import Mathlib.Data.List.Nodup
import Mathlib.Data.List.Perm.Subperm
import Mathlib.Tactic.Linarith
import Mathlib.Tactic.Ring
/-!
# SpiralMatrix — the spiral of numbers

spiral_matrix/source/spiral_matrix.c: `fill_spiral_matrix`.  A write outside the array and an `int` that would overflow
are undefined behaviour, `none`.  The numbers run clockwise from the first cell inwards, ring by ring
(`fill_spiral_matrix_spec`).
-/
namespace Eltex
namespace Spiral

inductive Direction where
  | right
  | down
  | left
  | up
deriving DecidableEq, Repr

/-- The variables of `fill_spiral_matrix`, its array and the indices written so far. -/
structure State where
  parray : List Int
  written : List Nat
  count : Int
  rightLimit : Int
  leftLimit : Int
  downLimit : Int
  upLimit : Int
  x : Int
  y : Int
  state : Direction
deriving DecidableEq, Repr

def start (size : Nat) (parray : List Int) : State where
  parray := parray
  written := []
  count := 0
  rightLimit := size
  leftLimit := -1
  downLimit := size
  upLimit := 0
  x := 0
  y := 0
  state := .right

/-- `y * size + x`, computed as a `size_t`. -/
def index (size : Nat) (y x : Int) : Nat := ((y * size + x) % 2 ^ 64).toNat

/-- The body of each `for` loop: `parray[y * size + x] = count + 1; ++count`. -/
def write (size : Nat) (s : State) : Option State :=
  let i := index size s.y s.x
  if i < s.parray.length ∧ s.count + 1 < 2 ^ 31 then
    some { s with parray := s.parray.set i (s.count + 1), written := s.written ++ [i], count := s.count + 1 }
  else none

/-- A `for` loop of so many rounds, each of which writes and moves by `(dx, dy)`. -/
def go (size : Nat) (dx dy : Int) : Nat → State → Option State
  | 0, s => some s
  | rounds + 1, s => (write size s).bind fun s => go size dx dy rounds { s with x := s.x + dx, y := s.y + dy }

/-- One of the four cases of the `switch`. -/
def leg (size : Nat) (s : State) : Option State :=
  match s.state with
  | .right => (go size 1 0 (s.rightLimit - s.x).toNat s).map fun s =>
      { s with rightLimit := s.rightLimit - 1, x := s.x - 1, y := s.y + 1, state := .down }
  | .down => (go size 0 1 (s.downLimit - s.y).toNat s).map fun s =>
      { s with downLimit := s.downLimit - 1, y := s.y - 1, x := s.x - 1, state := .left }
  | .left => (go size (-1) 0 (s.x - s.leftLimit).toNat s).map fun s =>
      { s with leftLimit := s.leftLimit + 1, x := s.x + 1, y := s.y - 1, state := .up }
  | .up => (go size 0 (-1) (s.y - s.upLimit).toNat s).map fun s =>
      { s with upLimit := s.upLimit + 1, y := s.y + 1, x := s.x + 1, state := .right }

/-- The `while` loop, with room for `legs` rounds; `none` where they are not enough. -/
def loop (size : Nat) : Nat → State → Option State
  | 0, s => if (s.count % 2 ^ 64).toNat < size * size % 2 ^ 64 then none else some s
  | legs + 1, s =>
    if (s.count % 2 ^ 64).toNat < size * size % 2 ^ 64 then (leg size s).bind (loop size legs) else some s

/-- `fill_spiral_matrix` -/
def fillSpiralMatrix (size legs : Nat) (parray : List Int) : Option State := loop size legs (start size parray)

/-- The number in row `y` and column `x` of the clockwise inward spiral: `k` is its ring, `m` the side of the ring and
`b` how many numbers the rings around it hold. -/
def spiralCell (n y x : Int) : Int :=
  let k := min (min x y) (min (n - 1 - x) (n - 1 - y))
  let m := n - 2 * k
  let b := n * n - m * m
  if y = k then b + (x - k) + 1
  else if x = n - 1 - k then b + (m - 1) + (y - k) + 1
  else if y = n - 1 - k then b + 2 * (m - 1) + (n - 1 - k - x) + 1
  else b + 3 * (m - 1) + (n - 1 - k - y) + 1

/-! ## The rings -/

/-- The numbers in the rings around the ring `k`. -/
def before (n k : Int) : Int := n * n - (n - 2 * k) * (n - 2 * k)

section Cells

variable {n k x y : Int}

theorem spiralCell_right (hx : k ≤ x) (hx' : x ≤ n - 1 - k) : spiralCell n k x = before n k + (x - k) + 1 := by
  have hring : min (min x k) (min (n - 1 - x) (n - 1 - k)) = k := by omega
  simp only [spiralCell, hring, if_true, before]

theorem spiralCell_down (hy : k < y) (hy' : y ≤ n - 1 - k) :
    spiralCell n y (n - 1 - k) = before n k + (n - 2 * k - 1) + (y - k) + 1 := by
  have hring : min (min (n - 1 - k) y) (min (n - 1 - (n - 1 - k)) (n - 1 - y)) = k := by omega
  simp only [spiralCell, hring, if_neg (Int.ne_of_gt hy), if_true, before]

theorem spiralCell_left (hx : k ≤ x) (hx' : x < n - 1 - k) :
    spiralCell n (n - 1 - k) x = before n k + 2 * (n - 2 * k - 1) + (n - 1 - k - x) + 1 := by
  have hring : min (min x (n - 1 - k)) (min (n - 1 - x) (n - 1 - (n - 1 - k))) = k := by omega
  simp only [spiralCell, hring, if_neg (show ¬ n - 1 - k = k by omega), if_neg (Int.ne_of_lt hx'), if_true, before]

theorem spiralCell_up (hy : k < y) (hy' : y < n - 1 - k) :
    spiralCell n y k = before n k + 3 * (n - 2 * k - 1) + (n - 1 - k - y) + 1 := by
  have hring : min (min k y) (min (n - 1 - k) (n - 1 - y)) = k := by omega
  simp only [spiralCell, hring, if_neg (Int.ne_of_gt hy), if_neg (show ¬ k = n - 1 - k by omega),
    if_neg (Int.ne_of_lt hy'), before]

/-- A ring holds four sides less their corners. -/
theorem before_succ (n k : Int) : before n (k + 1) = before n k + 4 * (n - 2 * k - 1) := by
  unfold before
  ring

end Cells

/-! ## What has been written -/

variable {n : Nat}

/-- The number that belongs at an index. -/
def cellAt (n i : Nat) : Int := spiralCell n (i / n : Nat) (i % n : Nat)

/-- The numbers 1 to `count` have been written, each where it belongs. -/
structure Filled (n : Nat) (s : State) : Prop where
  length : s.parray.length = n * n
  count : 0 ≤ s.count
  numbers : s.written.map (cellAt n) = (List.range s.count.toNat).map fun j : Nat => (j : Int) + 1
  cells : ∀ i ∈ s.written, i < n * n ∧ s.parray[i]? = some (cellAt n i)

variable {s t : State}

theorem filled_start {parray : List Int} (hlen : parray.length = n * n) : Filled n (start n parray) where
  length := hlen
  count := Int.le_refl 0
  numbers := rfl
  cells := nofun

theorem index_eq (hn : n * n < 2 ^ 31) {y x : Nat} (hy : y < n) (hx : x < n) : index n y x = y * n + x := by
  have hlt : y * n + x < n * n := by nlinarith
  unfold index
  omega

theorem cellAt_index {y x : Nat} (hx : x < n) : cellAt n (y * n + x) = spiralCell n y x := by
  have hdiv : (y * n + x) / n = y := by
    rw [Nat.add_comm, Nat.add_mul_div_right _ _ (by omega), Nat.div_eq_of_lt hx, Nat.zero_add]
  have hmod : (y * n + x) % n = x := by
    rw [Nat.add_comm, Nat.add_mul_mod_self_right, Nat.mod_eq_of_lt hx]
  rw [cellAt, hdiv, hmod]

theorem Filled.write (hn : n * n < 2 ^ 31) (h : Filled n s) (hy : 0 ≤ s.y) (hy' : s.y < n) (hx : 0 ≤ s.x)
    (hx' : s.x < n) (hcell : spiralCell n s.y s.x = s.count + 1) (hcount : s.count + 1 ≤ n * n) :
    ∃ parray written, write n s = some { s with parray := parray, written := written, count := s.count + 1 } ∧
      Filled n { s with parray := parray, written := written, count := s.count + 1 } := by
  obtain ⟨y, hyn⟩ := Int.eq_ofNat_of_zero_le hy
  obtain ⟨x, hxn⟩ := Int.eq_ofNat_of_zero_le hx
  rw [hyn, hxn] at hcell
  have hyn' : y < n := by omega
  have hxn' : x < n := by omega
  have hindex : index n s.y s.x = y * n + x := by rw [hyn, hxn, index_eq hn hyn' hxn']
  have hlt : y * n + x < n * n := by nlinarith
  have hvalue : cellAt n (y * n + x) = s.count + 1 := by rw [cellAt_index hxn', hcell]
  have hint : s.count + 1 < 2 ^ 31 := by omega
  refine ⟨s.parray.set (y * n + x) (s.count + 1), s.written ++ [y * n + x], ?_, ?_⟩
  · rw [Spiral.write, hindex, if_pos ⟨h.length ▸ hlt, hint⟩]
  constructor
  case length => rw [List.length_set, h.length]
  case count =>
    have := h.count
    show 0 ≤ s.count + 1
    omega
  case numbers =>
    have hsucc : (s.count + 1).toNat = s.count.toNat + 1 := by
      have := h.count
      omega
    simp only [hsucc, List.range_succ, List.map_append, List.map_cons, List.map_nil, h.numbers, hvalue,
      Int.toNat_of_nonneg h.count]
  case cells =>
    intro i hi
    by_cases hii : i = y * n + x
    · subst hii
      rw [List.getElem?_set_self (h.length ▸ hlt), hvalue]
      exact ⟨hlt, rfl⟩
    · have hold : i ∈ s.written := by simpa [hii] using hi
      rw [List.getElem?_set_ne (Ne.symm hii)]
      exact h.cells i hold

/-- **A `for` loop fills a straight line** on which the numbers go on. -/
theorem Filled.go (hn : n * n < 2 ^ 31) (dx dy : Int) : ∀ (rounds : Nat) (s : State), Filled n s →
    s.count + rounds ≤ n * n →
    (∀ j : Nat, j < rounds → (0 ≤ s.y + j * dy ∧ s.y + j * dy < n) ∧ (0 ≤ s.x + j * dx ∧ s.x + j * dx < n) ∧
      spiralCell n (s.y + j * dy) (s.x + j * dx) = s.count + j + 1) →
    ∃ parray written, go n dx dy rounds s = some { s with
        parray := parray, written := written, count := s.count + rounds
        x := s.x + rounds * dx, y := s.y + rounds * dy } ∧
      Filled n { s with
        parray := parray, written := written, count := s.count + rounds
        x := s.x + rounds * dx, y := s.y + rounds * dy }
  | 0, s, h, _, _ => by
    refine ⟨s.parray, s.written, ?_, ?_⟩
    · simp [Spiral.go]
    · simpa using { h with }
  | rounds + 1, s, h, hcount, hline => by
    obtain ⟨hy, hx, hcell⟩ := hline 0 (Nat.succ_pos rounds)
    simp only [Nat.cast_zero, Int.zero_mul, Int.add_zero] at hy hx hcell
    obtain ⟨parray, written, hwrite, hfilled⟩ := h.write hn hy.1 hy.2 hx.1 hx.2 hcell (by omega)
    have ih := Filled.go hn dx dy rounds { s with
      parray := parray, written := written, count := s.count + 1, x := s.x + dx, y := s.y + dy } { hfilled with }
      (by simp only; omega) (by
        intro j hj
        have hnext := hline (j + 1) (by omega)
        simp only [Nat.cast_add, Nat.cast_one, Int.add_mul, Int.one_mul] at hnext ⊢
        simpa only [Int.add_assoc, Int.add_comm, Int.add_left_comm] using hnext)
    obtain ⟨parray', written', hgo, hfilled'⟩ := ih
    refine ⟨parray', written', ?_, ?_⟩
    · rw [Spiral.go, hwrite, Option.bind_some, hgo]
      simp only [Nat.cast_add, Nat.cast_one, Int.add_mul, Int.one_mul, Int.add_assoc, Int.add_comm, Int.add_left_comm]
    · simpa only [Nat.cast_add, Nat.cast_one, Int.add_mul, Int.one_mul, Int.add_assoc, Int.add_comm,
        Int.add_left_comm] using hfilled'

/-! ## One leg -/

/-- The step of the `for` loop of a leg. -/
def Direction.step : Direction → Int × Int
  | .right => (1, 0)
  | .down => (0, 1)
  | .left => (-1, 0)
  | .up => (0, -1)

/-- The number of its rounds. -/
def State.rounds (s : State) : Nat :=
  match s.state with
  | .right => (s.rightLimit - s.x).toNat
  | .down => (s.downLimit - s.y).toNat
  | .left => (s.x - s.leftLimit).toNat
  | .up => (s.y - s.upLimit).toNat

/-- What follows the `for` loop. -/
def State.turn (s : State) (state : Direction) : State :=
  match state with
  | .right => { s with rightLimit := s.rightLimit - 1, x := s.x - 1, y := s.y + 1, state := .down }
  | .down => { s with downLimit := s.downLimit - 1, y := s.y - 1, x := s.x - 1, state := .left }
  | .left => { s with leftLimit := s.leftLimit + 1, x := s.x + 1, y := s.y - 1, state := .up }
  | .up => { s with upLimit := s.upLimit + 1, y := s.y + 1, x := s.x + 1, state := .right }

theorem leg_eq (n : Nat) (s : State) :
    leg n s = (Spiral.go n s.state.step.1 s.state.step.2 s.rounds s).map fun t => t.turn s.state := by
  unfold leg State.rounds
  cases s.state <;> rfl

theorem Filled.turn (h : Filled n s) (state : Direction) : Filled n (s.turn state) := by
  cases state <;> exact { h with }

/-- The variables at the beginning of a leg of the ring `k`. -/
def corner (n k : Int) (state : Direction) (parray : List Int) (written : List Nat) : State :=
  match state with
  | .right =>
    { parray := parray, written := written, count := before n k, rightLimit := n - k, leftLimit := k - 1
      downLimit := n - k, upLimit := k, x := k, y := k, state := .right }
  | .down =>
    { parray := parray, written := written, count := before n k + (n - 2 * k), rightLimit := n - k - 1
      leftLimit := k - 1, downLimit := n - k, upLimit := k, x := n - k - 1, y := k + 1, state := .down }
  | .left =>
    { parray := parray, written := written, count := before n k + 2 * (n - 2 * k) - 1, rightLimit := n - k - 1
      leftLimit := k - 1, downLimit := n - k - 1, upLimit := k, x := n - k - 2, y := n - k - 1, state := .left }
  | .up =>
    { parray := parray, written := written, count := before n k + 3 * (n - 2 * k) - 2, rightLimit := n - k - 1
      leftLimit := k, downLimit := n - k - 1, upLimit := k, x := k, y := n - k - 2, state := .up }

variable {k : Int} {parray : List Int} {written : List Nat}

/-- **A leg fills one side of the ring** and ends at the beginning of the next leg. -/
theorem Filled.leg (hn : n * n < 2 ^ 31) {state : Direction} (h : Filled n (corner n k state parray written))
    (rounds : Nat) (hrounds : (corner n k state parray written).rounds = rounds)
    (hcount : (corner n k state parray written).count + rounds ≤ n * n)
    (hline : ∀ j : Nat, j < rounds →
      (0 ≤ (corner n k state parray written).y + j * state.step.2 ∧
        (corner n k state parray written).y + j * state.step.2 < n) ∧
      (0 ≤ (corner n k state parray written).x + j * state.step.1 ∧
        (corner n k state parray written).x + j * state.step.1 < n) ∧
      spiralCell n ((corner n k state parray written).y + j * state.step.2)
        ((corner n k state parray written).x + j * state.step.1) = (corner n k state parray written).count + j + 1)
    {k' : Int} {state' : Direction}
    (hturn : ∀ parray' written', State.turn { corner n k state parray written with
        parray := parray', written := written', count := (corner n k state parray written).count + rounds
        x := (corner n k state parray written).x + rounds * state.step.1
        y := (corner n k state parray written).y + rounds * state.step.2 } state = corner n k' state' parray' written') :
    ∃ parray' written', Spiral.leg n (corner n k state parray written) = some (corner n k' state' parray' written') ∧
      Filled n (corner n k' state' parray' written') := by
  have hstate : (corner n k state parray written).state = state := by cases state <;> rfl
  obtain ⟨parray', written', hgo, hfilled⟩ := h.go hn state.step.1 state.step.2 rounds _ hcount hline
  refine ⟨parray', written', ?_, ?_⟩
  · rw [leg_eq, hstate, hrounds, hgo, Option.map_some, hturn]
  · rw [← hturn]
    exact hfilled.turn state

theorem leg_right (hn : n * n < 2 ^ 31) (hk : 0 ≤ k) (hm : 1 ≤ n - 2 * k)
    (h : Filled n (corner n k .right parray written)) : ∃ parray' written',
      leg n (corner n k .right parray written) = some (corner n k .down parray' written') ∧
        Filled n (corner n k .down parray' written') := by
  obtain ⟨m, hmn⟩ := Int.eq_ofNat_of_zero_le (show 0 ≤ n - 2 * k by omega)
  apply h.leg hn m
  · simp only [State.rounds, corner]
    omega
  · simp only [corner, before]
    nlinarith
  · intro j hj
    simp only [corner, Direction.step, Int.mul_zero, Int.mul_one, Int.add_zero]
    refine ⟨by omega, by omega, ?_⟩
    rw [spiralCell_right (by omega) (by omega)]
    omega
  · intro parray' written'
    simp only [State.turn, corner, Direction.step, State.mk.injEq, true_and, and_true]
    omega

theorem leg_down (hn : n * n < 2 ^ 31) (hk : 0 ≤ k) (hm : 2 ≤ n - 2 * k)
    (h : Filled n (corner n k .down parray written)) : ∃ parray' written',
      leg n (corner n k .down parray written) = some (corner n k .left parray' written') ∧
        Filled n (corner n k .left parray' written') := by
  obtain ⟨m, hmn⟩ := Int.eq_ofNat_of_zero_le (show 0 ≤ n - 2 * k - 1 by omega)
  apply h.leg hn m
  · simp only [State.rounds, corner]
    omega
  · simp only [corner, before]
    nlinarith
  · intro j hj
    simp only [corner, Direction.step, Int.mul_zero, Int.mul_one, Int.add_zero]
    refine ⟨by omega, by omega, ?_⟩
    rw [show n - k - 1 = n - 1 - k by omega, spiralCell_down (by omega) (by omega)]
    omega
  · intro parray' written'
    simp only [State.turn, corner, Direction.step, State.mk.injEq, true_and, and_true]
    omega

theorem leg_left (hn : n * n < 2 ^ 31) (hk : 0 ≤ k) (hm : 2 ≤ n - 2 * k)
    (h : Filled n (corner n k .left parray written)) : ∃ parray' written',
      leg n (corner n k .left parray written) = some (corner n k .up parray' written') ∧
        Filled n (corner n k .up parray' written') := by
  obtain ⟨m, hmn⟩ := Int.eq_ofNat_of_zero_le (show 0 ≤ n - 2 * k - 1 by omega)
  apply h.leg hn m
  · simp only [State.rounds, corner]
    omega
  · simp only [corner, before]
    nlinarith
  · intro j hj
    simp only [corner, Direction.step, Int.mul_zero, Int.mul_neg, Int.mul_one, Int.add_zero]
    refine ⟨by omega, by omega, ?_⟩
    rw [show n - k - 1 = n - 1 - k by omega, spiralCell_left (by omega) (by omega)]
    omega
  · intro parray' written'
    simp only [State.turn, corner, Direction.step, State.mk.injEq, true_and, and_true]
    omega

theorem leg_up (hn : n * n < 2 ^ 31) (hk : 0 ≤ k) (hm : 2 ≤ n - 2 * k)
    (h : Filled n (corner n k .up parray written)) : ∃ parray' written',
      leg n (corner n k .up parray written) = some (corner n (k + 1) .right parray' written') ∧
        Filled n (corner n (k + 1) .right parray' written') := by
  obtain ⟨m, hmn⟩ := Int.eq_ofNat_of_zero_le (show 0 ≤ n - 2 * k - 2 by omega)
  apply h.leg hn m
  · simp only [State.rounds, corner]
    omega
  · simp only [corner, before]
    nlinarith
  · intro j hj
    simp only [corner, Direction.step, Int.mul_zero, Int.mul_neg, Int.mul_one, Int.add_zero]
    refine ⟨by omega, by omega, ?_⟩
    rw [spiralCell_up (by omega) (by omega)]
    omega
  · intro parray' written'
    simp only [State.turn, corner, Direction.step, State.mk.injEq, before_succ, true_and, and_true]
    omega

/-! ## The whole spiral -/

theorem guard_iff (hn : n * n < 2 ^ 31) (h0 : 0 ≤ s.count) (hle : s.count ≤ n * n) :
    (s.count % 2 ^ 64).toNat < n * n % 2 ^ 64 ↔ s.count < n * n := by
  omega

theorem loop_step (hn : n * n < 2 ^ 31) (h0 : 0 ≤ s.count) (hlt : s.count < n * n) (hleg : leg n s = some t)
    (legs : Nat) : loop n (legs + 1) s = loop n legs t := by
  rw [loop, if_pos ((guard_iff hn h0 (Int.le_of_lt hlt)).2 hlt), hleg, Option.bind_some]

theorem loop_end (hn : n * n < 2 ^ 31) (h : s.count = n * n) : loop n 0 s = some s := by
  have h0 : 0 ≤ s.count := by omega
  rw [loop, if_neg fun hlt => absurd ((guard_iff hn h0 (Int.le_of_eq h)).1 hlt) (by omega)]

/-- **From the beginning of a ring the loop ends with all numbers written**: the innermost ring has one number or is
left after its third side. -/
theorem loop_ring (hn : n * n < 2 ^ 31) : ∀ (rings : Nat) (k : Int) (parray : List Int) (written : List Nat), 0 ≤ k →
    1 ≤ n - 2 * k → n - 2 * k ≤ 2 * rings → Filled n (corner n k .right parray written) →
    ∃ legs t, loop n legs (corner n k .right parray written) = some t ∧ Filled n t ∧ t.count = n * n
  | 0, k, parray, written, hk, hm, hrings, h => by omega
  | rings + 1, k, parray, written, hk, hm, hrings, h => by
    obtain ⟨parray₁, written₁, hright, h₁⟩ := leg_right hn hk hm h
    have hb : before n k = n * n - (n - 2 * k) * (n - 2 * k) := rfl
    have hstart : (corner n k .right parray written).count < n * n := by
      simp only [corner]
      nlinarith
    have hfirst := loop_step hn h.count hstart hright
    by_cases hone : n - 2 * k = 1
    · -- the centre
      have hcount : (corner n k .down parray₁ written₁).count = n * n := by
        simp only [corner, hb, hone]
        omega
      exact ⟨1, _, (hfirst 0).trans (loop_end hn hcount), h₁, hcount⟩
    obtain ⟨parray₂, written₂, hdown, h₂⟩ := leg_down hn hk (by omega) h₁
    obtain ⟨parray₃, written₃, hleft, h₃⟩ := leg_left hn hk (by omega) h₂
    have hsquare : 2 * (n - 2 * k) ≤ (n - 2 * k) * (n - 2 * k) :=
      Int.mul_le_mul_of_nonneg_right (by omega) (by omega)
    have hsecond := loop_step hn h₁.count (by simp only [corner]; omega) hdown
    have hthird := loop_step hn h₂.count (by simp only [corner]; omega) hleft
    by_cases htwo : n - 2 * k = 2
    · have hcount : (corner n k .up parray₃ written₃).count = n * n := by
        simp only [corner, hb, htwo]
        omega
      refine ⟨3, _, ?_, h₃, hcount⟩
      rw [hfirst, hsecond, hthird, loop_end hn hcount]
    obtain ⟨parray₄, written₄, hup, h₄⟩ := leg_up hn hk (by omega) h₃
    have hsquare : 3 * (n - 2 * k) ≤ (n - 2 * k) * (n - 2 * k) :=
      Int.mul_le_mul_of_nonneg_right (by omega) (by omega)
    have hfourth := loop_step hn h₃.count (by simp only [corner]; omega) hup
    obtain ⟨legs, t, hloop, ht⟩ := loop_ring hn rings (k + 1) parray₄ written₄ (by omega) (by omega) (by omega) h₄
    refine ⟨legs + 4, t, ?_, ht⟩
    rw [hfirst, hsecond, hthird, hfourth, hloop]

theorem Filled.complete (h : Filled n t) (hcount : t.count = n * n) :
    t.written.Nodup ∧ ∀ i < n * n, i ∈ t.written := by
  have hnodup : t.written.Nodup := by
    apply List.Nodup.of_map (cellAt n)
    rw [h.numbers]
    exact List.nodup_range.map fun i j hij => by omega
  have hlength : t.written.length = n * n := by
    have := congrArg List.length h.numbers
    rw [List.length_map, List.length_map, List.length_range] at this
    omega
  refine ⟨hnodup, fun i hi => ?_⟩
  have hsub : t.written ⊆ List.range (n * n) := fun j hj => List.mem_range.2 (h.cells j hj).1
  have hperm : t.written.Perm (List.range (n * n)) :=
    (List.subperm_of_subset hnodup hsub).perm_of_length_le (by rw [List.length_range, hlength])
  exact hperm.mem_iff.2 (List.mem_range.2 hi)

/-- **`fill_spiral_matrix` writes the clockwise inward spiral**, each cell once. -/
theorem fill_spiral_matrix_spec (n : Nat) (hn : n * n < 2 ^ 31) (parray : List Int) (hlen : parray.length = n * n) :
    ∃ legs t, fillSpiralMatrix n legs parray = some t ∧ (∀ i ∈ t.written, i < n * n) ∧ t.written.Nodup ∧
      ∀ y x : Nat, y < n → x < n → t.parray[y * n + x]? = some (spiralCell n y x) := by
  have hstart : ∃ legs t, fillSpiralMatrix n legs parray = some t ∧ Filled n t ∧ t.count = n * n := by
    have hfilled := filled_start hlen
    by_cases h0 : n = 0
    · subst h0
      exact ⟨0, _, rfl, hfilled, rfl⟩
    · have hcorner : start n parray = corner n 0 .right parray [] := by
        simp [start, corner, before]
      unfold fillSpiralMatrix
      rw [hcorner] at hfilled ⊢
      exact loop_ring hn n 0 parray [] (Int.le_refl 0) (by omega) (by omega) hfilled
  obtain ⟨legs, t, hloop, hfilled, hcount⟩ := hstart
  obtain ⟨hnodup, hall⟩ := hfilled.complete hcount
  refine ⟨legs, t, hloop, fun i hi => (hfilled.cells i hi).1, hnodup, fun y x hy hx => ?_⟩
  have hi : y * n + x < n * n := by nlinarith
  rw [← cellAt_index hx]
  exact (hfilled.cells _ (hall _ hi)).2

theorem fill_spiral_matrix_spec_three :
    ∃ legs t, fillSpiralMatrix 3 legs (List.replicate 9 0) = some t ∧ (∀ i ∈ t.written, i < 3 * 3) ∧ t.written.Nodup ∧
      ∀ y x : Nat, y < 3 → x < 3 → t.parray[y * 3 + x]? = some (spiralCell (3 : Nat) y x) :=
  fill_spiral_matrix_spec 3 (by decide) (List.replicate 9 0) (by decide)

example : (fillSpiralMatrix 3 6 (List.replicate 9 0)).map State.parray = some [1, 2, 3, 8, 9, 4, 7, 6, 5] := by
  decide

end Spiral
end Eltex
