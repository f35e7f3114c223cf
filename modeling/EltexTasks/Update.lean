import Mathlib.Algebra.Order.Ring.Int
import Mathlib.Data.List.Nodup
import Mathlib.Logic.Function.Basic
/-!
# Update — lists and tables changed at one place

What is at an index of a list after a write or an append, what one of many is sent, and tables (partial functions) that
hold some entries beside those of another table.
-/
namespace Eltex

variable {α β : Type}

theorem getElem?_set_cases {xs : List α} {i j : Nat} {x y : α} (h : (xs.set i x)[j]? = some y) :
    (j = i ∧ y = x) ∨ (j ≠ i ∧ xs[j]? = some y) := by
  by_cases hij : i = j
  · subst hij
    obtain ⟨hlt, -⟩ := List.getElem?_eq_some_iff.1 h
    rw [List.getElem?_set_self (by rwa [List.length_set] at hlt)] at h
    exact .inl ⟨rfl, (Option.some.inj h).symm⟩
  · rw [List.getElem?_set_ne hij] at h
    exact .inr ⟨Ne.symm hij, h⟩

theorem getElem?_concat_cases {xs : List α} {j : Nat} {x y : α} (h : (xs ++ [x])[j]? = some y) :
    xs[j]? = some y ∨ (j = xs.length ∧ y = x) := by
  rcases Nat.lt_or_ge j xs.length with hlt | hge
  · rw [List.getElem?_append_left hlt] at h; exact .inl h
  · rw [List.getElem?_append_right hge, List.getElem?_singleton] at h
    split at h
    · exact .inr ⟨by omega, (Option.some.inj h).symm⟩
    · cases h

theorem getElem?_concat_of_some {xs : List α} {j : Nat} {x y : α} (h : xs[j]? = some y) :
    (xs ++ [x])[j]? = some y := by
  rw [List.getElem?_append_left (List.getElem?_eq_some_iff.1 h).1]; exact h

theorem mapM_eq_some_map {f : α → Option β} {g : α → β} : ∀ {l : List α},
    (∀ x ∈ l, f x = some (g x)) → l.mapM f = some (l.map g)
  | [], _ => rfl
  | x :: l, h => by
    rw [List.mapM_cons, h x List.mem_cons_self, mapM_eq_some_map fun y hy => h y (List.mem_cons_of_mem x hy)]
    rfl

/-- The sum over a list after a write. -/
theorem sum_map_set (f : α → Nat) {xs : List α} {i : Nat} {x : α} (h : xs[i]? = some x) (y : α) :
    ((xs.set i y).map f).sum + f x = (xs.map f).sum + f y := by
  induction xs generalizing i with
  | nil => cases h
  | cons z zs ih =>
    cases i with
    | zero =>
      obtain rfl := Option.some.inj h
      simp only [List.set_cons_zero, List.map_cons, List.sum_cons]
      omega
    | succ i =>
      have := ih (i := i) h
      simp only [List.set_cons_succ, List.map_cons, List.sum_cons]
      omega

/-- What the elements of a list contribute, after a write. -/
theorem perm_flatMap_set (f : α → List β) {xs : List α} {i : Nat} {x : α} (h : xs[i]? = some x) (y : α) :
    (f x ++ (xs.set i y).flatMap f).Perm (f y ++ xs.flatMap f) := by
  induction xs generalizing i with
  | nil => cases h
  | cons z zs ih =>
    cases i with
    | zero =>
      obtain rfl := Option.some.inj h
      rw [List.set_cons_zero, List.flatMap_cons, List.flatMap_cons]
      exact List.perm_append_comm_assoc ..
    | succ i =>
      rw [List.set_cons_succ, List.flatMap_cons, List.flatMap_cons]
      exact (List.perm_append_comm_assoc ..).trans (((ih h).append_left (f z)).trans (List.perm_append_comm_assoc ..))

/-- Of one thing sent to each of the first `n`, what comes to `i`. -/
theorem map_filter_addressed (n i : Nat) (x : α) (f : Nat × α → β) :
    ((((List.range n).map fun j => (j, x)).filter (·.1 == i)).map f) = if i < n then [f (i, x)] else [] := by
  have hone : (List.range n).filter ((fun p : Nat × α => p.1 == i) ∘ fun j => (j, x)) = if i < n then [i] else [] := by
    show (List.range n).filter (fun j => j == i) = _
    rw [List.filter_beq]
    by_cases hi : i < n
    · rw [if_pos hi, List.count_eq_one_of_mem List.nodup_range (List.mem_range.2 hi)]; rfl
    · rw [if_neg hi, List.count_eq_zero_of_not_mem fun hmem => hi (List.mem_range.1 hmem)]; rfl
  rw [List.filter_map, hone]
  split <;> rfl

/-- The table `t` holds the entries `E`, where `t₀` holds nothing, and is `t₀` elsewhere. -/
structure Extends (t₀ t : α → Option β) (E : α → β → Prop) : Prop where
  entry : ∀ {a b}, E a b → t a = some b ∧ t₀ a = none
  rest : ∀ {a}, (∀ b, ¬ E a b) → t a = t₀ a

namespace Extends

variable {t₀ t : α → Option β} {E F : α → β → Prop}

theorem refl (t : α → Option β) (hE : ∀ a b, ¬ E a b) : Extends t t E :=
  ⟨fun h => absurd h (hE _ _), fun _ => rfl⟩

theorem congr (h : Extends t₀ t E) (hEF : ∀ a b, E a b ↔ F a b) : Extends t₀ t F :=
  ⟨fun hF => h.entry ((hEF _ _).2 hF), fun hF => h.rest fun b hE => hF b ((hEF _ b).1 hE)⟩

theorem eq_of_empty (h : Extends t₀ t E) (hE : ∀ a b, ¬ E a b) : t = t₀ := by
  funext a
  exact h.rest (hE a)

variable [DecidableEq α]

/-- A new entry goes where the table holds nothing. -/
theorem add (h : Extends t₀ t E) {a : α} (b : β) (hfree : t a = none) :
    Extends t₀ (Function.update t a (some b)) (fun x y => E x y ∨ (x = a ∧ y = b)) where
  entry := by
    rintro x y (hxy | ⟨rfl, rfl⟩)
    · have hx := h.entry hxy
      have hne : x ≠ a := fun he => by rw [he, hfree] at hx; cases hx.1
      rw [Function.update_of_ne hne]
      exact hx
    · refine ⟨Function.update_self .., ?_⟩
      rw [← h.rest fun c hc => ?_]
      · exact hfree
      · rw [(h.entry hc).1] at hfree; cases hfree
  rest := by
    intro x hx
    have hne : x ≠ a := fun he => hx b (.inr ⟨he, rfl⟩)
    rw [Function.update_of_ne hne]
    exact h.rest fun c hc => hx c (.inl hc)

theorem remove (h : Extends t₀ t E) {a : α} {b : β} (hab : E a b) (honly : ∀ x, E x b → x = a) :
    Extends t₀ (Function.update t a none) (fun x y => E x y ∧ y ≠ b) where
  entry := by
    rintro x y ⟨hxy, hne⟩
    have hxa : x ≠ a := by
      rintro rfl
      exact hne (Option.some.inj ((h.entry hxy).1.symm.trans (h.entry hab).1))
    rw [Function.update_of_ne hxa]
    exact h.entry hxy
  rest := by
    intro x hx
    by_cases hxa : x = a
    · subst hxa
      rw [Function.update_self]
      exact (h.entry hab).2.symm
    · rw [Function.update_of_ne hxa]
      refine h.rest fun y hy => hx y ⟨hy, ?_⟩
      rintro rfl
      exact hxa (honly x hy)

end Extends
end Eltex
