import Mathlib.Algebra.Order.Ring.Int
/-!
# PriorityQueue — queues that give the oldest element of the highest priority

A queue is the list of its elements in the order they were put.
-/
namespace Eltex
namespace PriorityQueue

variable {α κ : Type} [LinearOrder κ] (key : α → κ)

/-- The oldest of the elements of the highest priority, and the queue without it. -/
def pop : List α → Option (α × List α)
  | [] => none
  | x :: xs =>
    match pop xs with
    | none => some (x, [])
    | some (y, rest) => if key x < key y then some (y, x :: rest) else some (x, xs)

variable {key}

theorem pop_eq_none : ∀ {xs : List α}, pop key xs = none → xs = []
  | [], _ => rfl
  | x :: xs, h => by
    unfold pop at h
    cases hp : pop key xs with
    | none => rw [hp] at h; cases h
    | some r =>
      rw [hp] at h
      simp only at h
      split at h
      · cases h
      · cases h

/-- **What is taken**: every older element has a lower priority, every younger one a priority that is no higher. -/
theorem pop_eq_some : ∀ {xs rest : List α} {x : α}, pop key xs = some (x, rest) →
    ∃ before after, xs = before ++ x :: after ∧ rest = before ++ after ∧ (∀ y ∈ before, key y < key x) ∧
      ∀ y ∈ after, key y ≤ key x
  | x₀ :: xs, rest, x, h => by
    unfold pop at h
    cases hp : pop key xs with
    | none =>
      rw [hp] at h
      obtain rfl := pop_eq_none hp
      obtain ⟨rfl, rfl⟩ := h
      exact ⟨[], [], rfl, rfl, nofun, nofun⟩
    | some r =>
      obtain ⟨y, ys⟩ := r
      obtain ⟨before, after, rfl, rfl, hbefore, hafter⟩ := pop_eq_some hp
      rw [hp] at h
      simp only at h
      by_cases hlt : key x₀ < key y
      · rw [if_pos hlt] at h
        obtain ⟨rfl, rfl⟩ := h
        refine ⟨x₀ :: before, after, rfl, rfl, fun z hz => ?_, hafter⟩
        rcases List.mem_cons.1 hz with rfl | hz
        · exact hlt
        · exact hbefore z hz
      · rw [if_neg hlt] at h
        obtain ⟨rfl, rfl⟩ := h
        have hle : key y ≤ key x₀ := not_lt.1 hlt
        refine ⟨[], before ++ y :: after, rfl, rfl, nofun, fun z hz => ?_⟩
        rcases List.mem_append.1 hz with hz | hz
        · exact le_trans (le_of_lt (hbefore z hz)) hle
        · rcases List.mem_cons.1 hz with rfl | hz
          · exact hle
          · exact le_trans (hafter z hz) hle

theorem pop_perm {xs rest : List α} {x : α} (h : pop key xs = some (x, rest)) : xs.Perm (x :: rest) := by
  obtain ⟨before, after, rfl, rfl, -, -⟩ := pop_eq_some h
  exact List.perm_middle

/-- Nothing in the queue has a higher priority than what is taken. -/
theorem pop_max {xs rest : List α} {x y : α} (h : pop key xs = some (x, rest)) (hy : y ∈ xs) : key y ≤ key x := by
  obtain ⟨before, after, rfl, rfl, hbefore, hafter⟩ := pop_eq_some h
  rcases List.mem_append.1 hy with hy | hy
  · exact le_of_lt (hbefore y hy)
  · rcases List.mem_cons.1 hy with rfl | hy
    · exact le_refl _
    · exact hafter y hy

/-- An element put last that is of no higher priority than what is taken stays behind it. -/
theorem pop_concat {xs rest : List α} {x y : α} (h : pop key xs = some (x, rest)) (hy : key y ≤ key x) :
    pop key (xs ++ [y]) = some (x, rest ++ [y]) := by
  induction xs generalizing x rest with
  | nil => cases h
  | cons x₀ xs ih =>
    cases hp : pop key xs with
    | none =>
      obtain rfl := pop_eq_none hp
      obtain ⟨rfl, rfl⟩ := Prod.mk.inj (Option.some.inj h)
      exact if_neg (not_lt.2 hy)
    | some p =>
      obtain ⟨z, zs⟩ := p
      simp only [pop, hp] at h
      by_cases hlt : key x₀ < key z
      · rw [if_pos hlt] at h
        obtain ⟨rfl, rfl⟩ := Prod.mk.inj (Option.some.inj h)
        simp only [List.cons_append, pop, ih hp hy]
        exact if_pos hlt
      · rw [if_neg hlt] at h
        obtain ⟨rfl, rfl⟩ := Prod.mk.inj (Option.some.inj h)
        cases hw : pop key (xs ++ [y]) with
        | none => exact absurd (pop_eq_none hw) (List.append_ne_nil_of_right_ne_nil xs (List.cons_ne_nil y []))
        | some q =>
          -- the highest of the others is one of `xs` or `y`
          have hle : key q.1 ≤ key x₀ := by
            have hmem : q.1 ∈ xs ++ [y] := (pop_perm hw).symm.subset List.mem_cons_self
            rcases List.mem_append.1 hmem with hmem | hmem
            · exact le_trans (pop_max hp hmem) (not_lt.1 hlt)
            · rw [List.mem_singleton.1 hmem]
              exact hy
          simp only [List.cons_append, pop, hw]
          exact if_neg (not_lt.2 hle)

end PriorityQueue
end Eltex
