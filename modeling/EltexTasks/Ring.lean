import Mathlib.Data.List.Basic
import Mathlib.Data.List.Range
/-!
# Ring — circular buffers

A buffer of `N` slots into which the elements of a list have been written one after another, each at the place after
the one before, modulo `N`: the slots hold the last `N` of them (`Holds`).
-/
namespace Eltex
namespace Ring

variable {α : Type}

theorem mod_ne_of_lt {i m n : Nat} (him : i < m) (hmn : m < i + n) : i % n ≠ m % n := by
  intro h
  have h0 : (m - i) % n = 0 := Nat.sub_mod_eq_zero_of_mod_eq h.symm
  rw [Nat.mod_eq_of_lt (by omega)] at h0
  omega

/-- **The slots hold the last writes of `xs`**; the slots not yet written hold `zero`. -/
structure Holds (zero : α) (slots xs : List α) : Prop where
  recent : ∀ i x, xs[i]? = some x → xs.length ≤ i + slots.length → slots[i % slots.length]? = some x
  unused : ∀ j, xs.length ≤ j → j < slots.length → slots[j]? = some zero

theorem holds_replicate (zero : α) (n : Nat) : Holds zero (List.replicate n zero) [] :=
  ⟨fun i x h => (by cases h), fun j _ hj => by
    rw [List.length_replicate] at hj
    rw [List.getElem?_replicate, if_pos hj]⟩

/-- **One more write**, at the slot after the last. -/
theorem Holds.push {zero : α} {slots xs : List α} (h : Holds zero slots xs) (hn : 0 < slots.length) (x : α) :
    Holds zero (slots.set (xs.length % slots.length) x) (xs ++ [x]) := by
  have hlt : xs.length % slots.length < slots.length := Nat.mod_lt _ hn
  refine ⟨fun i y hi hle => ?_, fun j hj hlen => ?_⟩
  · rw [List.length_set, List.length_append, List.length_singleton] at hle
    rw [List.length_set]
    rcases Nat.lt_trichotomy i xs.length with hix | rfl | hix
    · rw [List.getElem?_append_left hix] at hi
      rw [List.getElem?_set_ne (mod_ne_of_lt hix (by omega)).symm]
      exact h.recent i y hi (by omega)
    · rw [List.getElem?_concat_length] at hi
      rw [List.getElem?_set_self hlt]
      exact hi
    · rw [List.getElem?_eq_none (by rw [List.length_append, List.length_singleton]; omega)] at hi
      cases hi
  · rw [List.length_append, List.length_singleton] at hj
    rw [List.length_set] at hlen
    have hne : xs.length % slots.length ≠ j := by rw [Nat.mod_eq_of_lt (by omega)]; omega
    rw [List.getElem?_set_ne hne]
    exact h.unused j (by omega) hlen

theorem succ_mod (m n : Nat) : (m % n + 1) % n = (m + 1) % n := by
  rw [Nat.add_mod, Nat.mod_mod, ← Nat.add_mod]

end Ring
end Eltex
