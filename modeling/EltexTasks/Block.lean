import Mathlib.Data.List.Basic
/-!
# Block — arrays that grow (a library)

A block of memory is the list of its cells, `none` where nothing has been stored since it was given out.  A block that
is filled from its first cell on and made longer when it is full holds what was stored, in order (`Holds`).
-/
namespace Eltex
namespace Block

variable {α : Type}

/-- A new block of `n` cells. -/
def malloc (n : Nat) : List (Option α) := List.replicate n none

/-- The cells that fit are kept. -/
def realloc (cells : List (Option α)) (n : Nat) : List (Option α) :=
  cells.take n ++ List.replicate (n - cells.length) none

/-- **The first cells hold `xs`.** -/
def Holds (cells : List (Option α)) (xs : List α) : Prop := xs.map some <+: cells

variable {cells : List (Option α)} {xs : List α}

@[simp] theorem length_malloc (n : Nat) : (malloc n : List (Option α)).length = n := List.length_replicate

@[simp] theorem length_realloc (cells : List (Option α)) (n : Nat) : (realloc cells n).length = n := by
  rw [realloc, List.length_append, List.length_take, List.length_replicate]
  omega

theorem holds_nil (cells : List (Option α)) : Holds cells [] := List.nil_prefix

theorem Holds.length_le (h : Holds cells xs) : xs.length ≤ cells.length := by
  have := List.IsPrefix.length_le h
  rwa [List.length_map] at this

theorem Holds.get (h : Holds cells xs) {i : Nat} {x : α} (hx : xs[i]? = some x) : cells[i]? = some (some x) := by
  obtain ⟨rest, rfl⟩ := h
  have hx' : (xs.map some)[i]? = some (some x) := by rw [List.getElem?_map, hx]; rfl
  rw [List.getElem?_append_left (List.getElem?_eq_some_iff.1 hx').1, hx']

/-- A block made longer holds the same. -/
theorem Holds.realloc (h : Holds cells xs) {n : Nat} (hn : cells.length ≤ n) : Holds (realloc cells n) xs := by
  unfold Block.realloc
  rw [List.take_of_length_le hn]
  exact List.IsPrefix.trans h (List.prefix_append _ _)

/-- **A store at the first free cell.** -/
theorem Holds.store (h : Holds cells xs) (hlt : xs.length < cells.length) (x : α) :
    Holds (cells.set xs.length (some x)) (xs ++ [x]) := by
  obtain ⟨rest, rfl⟩ := h
  cases rest with
  | nil => simp at hlt
  | cons c rest =>
    refine ⟨rest, ?_⟩
    rw [List.set_append_right _ _ (by simp), List.length_map, Nat.sub_self, List.set_cons_zero,
      List.map_append, List.append_assoc]
    rfl

end Block
end Eltex
