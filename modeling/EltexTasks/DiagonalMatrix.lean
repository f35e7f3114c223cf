import Mathlib.Data.List.Flatten
import Mathlib.Data.List.Range
import Mathlib.Tactic.Linarith
/-!
# DiagonalMatrix — ones from the second diagonal on

spiral_matrix/source/diagonal_matrix.c: `fill_diagonal_matrix`, whose inner loop begins at `size - 1 - i`.  A write
outside the array is undefined behaviour, `none`.
-/
namespace Eltex
namespace Diagonal

/-- The array and the indices written so far. -/
structure State where
  parray : List Int
  written : List Nat
deriving DecidableEq, Repr

/-- `parray[i * size + j] = 1`, the index a `size_t`. -/
def write (size i : Nat) (s : State) (j : Nat) : Option State :=
  let k := (i * size + j) % 2 ^ 64
  if k < s.parray.length then some { parray := s.parray.set k 1, written := s.written ++ [k] } else none

/-- The inner loop of round `i`; its first `j` is a `size_t` as well. -/
def inner (size : Nat) (s : State) (i : Nat) : Option State :=
  let first := (size + 2 ^ 64 - 1 - i) % 2 ^ 64
  (List.range' first (size - first)).foldlM (write size i) s

/-- `fill_diagonal_matrix` -/
def fillDiagonalMatrix (size : Nat) (parray : List Int) : Option State :=
  (List.range size).foldlM (inner size) { parray := parray, written := [] }

/-- The columns written in row `i`. -/
def columns (n i : Nat) : List Nat := List.range' (n - 1 - i) (i + 1)

/-- The cells of row `i` that are written. -/
def cells (n i : Nat) : List Nat := (columns n i).map fun j => i * n + j

/-- There are ones where something has been written, and what there was elsewhere. -/
structure Ones (n : Nat) (old : List Int) (s : State) : Prop where
  length : s.parray.length = n * n
  inside : ∀ k ∈ s.written, k < n * n
  cell : ∀ k, s.parray[k]? = if k ∈ s.written then some 1 else old[k]?

variable {n i j : Nat} {old : List Int} {s : State}

theorem lt_of_mem_columns (hi : i < n) (h : j ∈ columns n i) : j < n := by
  obtain ⟨m, hm, rfl⟩ := List.mem_range'.1 h
  omega

theorem mem_columns (hi : i < n) (hj : j < n) : j ∈ columns n i ↔ n ≤ i + j + 1 := by
  unfold columns
  rw [List.mem_range'_1]
  omega

theorem cell_lt (hi : i < n) (hj : j < n) : i * n + j < n * n := by nlinarith

theorem Ones.write (hn : n * n < 2 ^ 64) (h : Ones n old s) (hi : i < n) (hj : j < n) :
    ∃ t, write n i s j = some t ∧ t.written = s.written ++ [i * n + j] ∧ Ones n old t := by
  have hlt := cell_lt hi hj
  have hindex : (i * n + j) % 2 ^ 64 = i * n + j := Nat.mod_eq_of_lt (Nat.lt_trans hlt hn)
  refine ⟨{ parray := s.parray.set (i * n + j) 1, written := s.written ++ [i * n + j] }, ?_, rfl, ?_⟩
  · simp only [Diagonal.write, hindex]
    exact if_pos (h.length ▸ hlt)
  constructor
  case length => rw [List.length_set, h.length]
  case inside =>
    intro k hk
    rcases List.mem_append.1 hk with hk | hk
    · exact h.inside k hk
    · rw [List.mem_singleton.1 hk]
      exact hlt
  case cell =>
    intro k
    by_cases hk : k = i * n + j
    · subst hk
      rw [List.getElem?_set_self (h.length ▸ hlt), if_pos (List.mem_append_right _ List.mem_cons_self)]
    · have hmem : k ∈ s.written ++ [i * n + j] ↔ k ∈ s.written := by simp [hk]
      rw [List.getElem?_set_ne (Ne.symm hk), h.cell k]
      simp only [hmem]

theorem Ones.row (hn : n * n < 2 ^ 64) (hi : i < n) : ∀ (js : List Nat) (s : State), Ones n old s → (∀ j ∈ js, j < n) →
    ∃ t, js.foldlM (Diagonal.write n i) s = some t ∧ t.written = s.written ++ js.map (fun j => i * n + j) ∧ Ones n old t
  | [], s, h, _ => ⟨s, rfl, (List.append_nil _).symm, h⟩
  | j :: js, s, h, hjs => by
    obtain ⟨u, hwrite, hu, hones⟩ := h.write hn hi (hjs j List.mem_cons_self)
    obtain ⟨t, hrow, ht, hones'⟩ := Ones.row hn hi js u hones fun k hk => hjs k (List.mem_cons_of_mem _ hk)
    refine ⟨t, ?_, ?_, hones'⟩
    · rw [List.foldlM_cons, hwrite]
      exact hrow
    · rw [ht, hu, List.append_assoc]
      rfl

theorem Ones.inner (hn : n * n < 2 ^ 64) (h : Ones n old s) (hi : i < n) :
    ∃ t, inner n s i = some t ∧ t.written = s.written ++ cells n i ∧ Ones n old t := by
  have hle : n ≤ n * n := Nat.le_mul_self n
  have hfirst : (n + 2 ^ 64 - 1 - i) % 2 ^ 64 = n - 1 - i := by omega
  have hrounds : n - (n - 1 - i) = i + 1 := by omega
  simp only [Diagonal.inner, hfirst, hrounds]
  exact Ones.row hn hi (columns n i) s h fun j hj => lt_of_mem_columns hi hj

theorem Ones.rows (hn : n * n < 2 ^ 64) : ∀ (is : List Nat) (s : State), Ones n old s → (∀ i ∈ is, i < n) →
    ∃ t, is.foldlM (Diagonal.inner n) s = some t ∧ t.written = s.written ++ is.flatMap (cells n) ∧ Ones n old t
  | [], s, h, _ => ⟨s, rfl, (List.append_nil _).symm, h⟩
  | i :: is, s, h, his => by
    obtain ⟨u, hinner, hu, hones⟩ := h.inner hn (his i List.mem_cons_self)
    obtain ⟨t, hrows, ht, hones'⟩ := Ones.rows hn is u hones fun k hk => his k (List.mem_cons_of_mem _ hk)
    refine ⟨t, ?_, ?_, hones'⟩
    · rw [List.foldlM_cons, hinner]
      exact hrows
    · rw [ht, hu, List.append_assoc, List.flatMap_cons]

/-- The cells come in the order of the array. -/
theorem increasing_cells (n : Nat) : ((List.range n).flatMap (cells n)).Pairwise (· < ·) := by
  rw [List.pairwise_flatMap]
  constructor
  · intro i _
    have hcolumns : (columns n i).Pairwise (· < ·) := List.pairwise_lt_range'
    exact List.pairwise_map.2 (hcolumns.imp fun hlt => Nat.add_lt_add_left hlt _)
  · refine List.pairwise_lt_range.imp_of_mem fun {i i'} hi hi' hlt => ?_
    intro k hk k' hk'
    obtain ⟨j, hj, rfl⟩ := List.mem_map.1 hk
    obtain ⟨j', -, rfl⟩ := List.mem_map.1 hk'
    have hjn := lt_of_mem_columns (List.mem_range.1 hi) hj
    have hrow : (i + 1) * n ≤ i' * n := Nat.mul_le_mul_right n hlt
    rw [Nat.succ_mul] at hrow
    omega

theorem row_of_cell (i : Nat) (hj : j < n) : (i * n + j) / n = i := by
  rw [Nat.add_comm, Nat.add_mul_div_right _ _ (Nat.zero_lt_of_lt hj), Nat.div_eq_of_lt hj, Nat.zero_add]

theorem mem_cells {y x : Nat} (hy : y < n) (hx : x < n) :
    y * n + x ∈ (List.range n).flatMap (cells n) ↔ n ≤ y + x + 1 := by
  rw [← mem_columns hy hx, List.mem_flatMap]
  constructor
  · rintro ⟨i, hi, hk⟩
    obtain ⟨j, hj, heq⟩ := List.mem_map.1 hk
    have hjn := lt_of_mem_columns (List.mem_range.1 hi) hj
    obtain rfl : i = y := by rw [← row_of_cell i hjn, heq, row_of_cell y hx]
    obtain rfl := Nat.add_left_cancel heq
    exact hj
  · intro hx
    exact ⟨y, List.mem_range.2 hy, List.mem_map_of_mem hx⟩

/-- **`fill_diagonal_matrix` writes a one in the cells from the second diagonal on**, each once and in their order, and
leaves the others as they were. -/
theorem fill_diagonal_matrix_spec (n : Nat) (hn : n * n < 2 ^ 64) (parray : List Int) (hlen : parray.length = n * n) :
    ∃ t, fillDiagonalMatrix n parray = some t ∧ (∀ k ∈ t.written, k < n * n) ∧ t.written.Pairwise (· < ·) ∧
      ∀ y x : Nat, y < n → x < n → t.parray[y * n + x]? = if n ≤ y + x + 1 then some 1 else parray[y * n + x]? := by
  have hstart : Ones n parray { parray := parray, written := [] } :=
    ⟨hlen, fun k hk => absurd hk List.not_mem_nil, fun k => (if_neg List.not_mem_nil).symm⟩
  obtain ⟨t, ht, hwritten, hones⟩ := Ones.rows hn (List.range n) _ hstart fun i hi => List.mem_range.1 hi
  rw [List.nil_append] at hwritten
  refine ⟨t, ht, hones.inside, hwritten ▸ increasing_cells n, fun y x hy hx => ?_⟩
  rw [hones.cell, hwritten]
  simp only [mem_cells hy hx]

theorem fill_diagonal_matrix_spec_three :
    ∃ t, fillDiagonalMatrix 3 (List.replicate 9 0) = some t ∧ (∀ k ∈ t.written, k < 3 * 3) ∧
      t.written.Pairwise (· < ·) ∧ ∀ y x : Nat, y < 3 → x < 3 →
        t.parray[y * 3 + x]? = if 3 ≤ y + x + 1 then some 1 else (List.replicate 9 (0 : Int))[y * 3 + x]? :=
  fill_diagonal_matrix_spec 3 (by decide) (List.replicate 9 0) (by decide)

end Diagonal
end Eltex
