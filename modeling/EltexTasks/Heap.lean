import Mathlib.Data.List.AList
/-!
# Heap — the memory `malloc` and `free` manage (a library)

A heap is a finite map from addresses to records of one type.  Reading, writing or freeing an address it does not hold
is undefined behaviour, `none`.
-/
namespace Eltex

abbrev Addr := Nat

abbrev Heap (ν : Type) : Type := AList fun _ : Addr => ν

namespace Heap

variable {ν : Type}

def load (h : Heap ν) (a : Addr) : Option ν := h.lookup a

/-- Write to the record at `a`. -/
def modify (h : Heap ν) (a : Addr) (f : ν → ν) : Option (Heap ν) := (h.load a).map fun n => h.insert a (f n)

/-- Write through a pointer; `none` is NULL. -/
def assign (h : Heap ν) (p : Option Addr) (f : ν → ν) : Option (Heap ν) := p.bind fun a => h.modify a f

/-- `malloc` returns the address `a`, unused so far, and the record is written there. -/
def malloc (h : Heap ν) (a : Addr) (n : ν) : Option (Heap ν) := if a ∈ h then none else some (h.insert a n)

def free (h : Heap ν) (a : Addr) : Option (Heap ν) := if a ∈ h then some (h.erase a) else none

/-- The number of records. -/
def size (h : Heap ν) : Nat := h.keys.length

variable {h g : Heap ν} {a b : Addr} {n : ν} {f : ν → ν}

theorem mem_of_load (hl : h.load a = some n) : a ∈ h := by
  rw [← AList.lookup_isSome, show h.lookup a = some n from hl]
  rfl

/-! ## Writing -/

theorem load_modify (hg : h.modify a f = some g) : g.load a = (h.load a).map f := by
  obtain ⟨n, hn, rfl⟩ := Option.map_eq_some_iff.1 hg
  rw [hn]
  exact AList.lookup_insert h

theorem load_modify_of_load (hl : h.load a = some n) (hg : h.modify a f = some g) : g.load a = some (f n) := by
  rw [load_modify hg, hl]
  rfl

theorem exists_modify (hl : h.load a = some n) (f : ν → ν) : ∃ g, h.modify a f = some g ∧ g.load a = some (f n) := by
  have hg : h.modify a f = some (h.insert a (f n)) := by
    rw [modify, hl]
    rfl
  exact ⟨_, hg, load_modify_of_load hl hg⟩

theorem load_modify_ne (hg : h.modify a f = some g) (hne : b ≠ a) : g.load b = h.load b := by
  obtain ⟨n, -, rfl⟩ := Option.map_eq_some_iff.1 hg
  exact AList.lookup_insert_ne hne

/-- A write keeps what it does not touch. -/
theorem map_load_modify {β : Type} {π : ν → β} (hg : h.modify a f = some g) (hf : ∀ n, π (f n) = π n) (b : Addr) :
    (g.load b).map π = (h.load b).map π := by
  by_cases hba : b = a
  · subst hba
    rw [load_modify hg, Option.map_map]
    exact Option.map_congr fun n _ => hf n
  · rw [load_modify_ne hg hba]

/-! ## Allocating and freeing -/

theorem load_malloc (hg : h.malloc a n = some g) : g.load a = some n := by
  rw [malloc] at hg
  split at hg
  · cases hg
  · cases hg
    exact AList.lookup_insert h

theorem load_malloc_ne (hg : h.malloc a n = some g) (hne : b ≠ a) : g.load b = h.load b := by
  rw [malloc] at hg
  split at hg
  · cases hg
  · cases hg
    exact AList.lookup_insert_ne hne

theorem not_mem_of_malloc (hg : h.malloc a n = some g) : a ∉ h := by
  intro ha
  rw [malloc, if_pos ha] at hg
  cases hg

theorem exists_malloc (ha : a ∉ h) (n : ν) : ∃ g, h.malloc a n = some g := ⟨_, if_neg ha⟩

theorem exists_free (ha : a ∈ h) : ∃ g, h.free a = some g := ⟨_, if_pos ha⟩

theorem load_free (hg : h.free a = some g) : g.load a = none := by
  rw [free] at hg
  split at hg
  · cases hg
    exact AList.lookup_erase a h
  · cases hg

theorem load_free_ne (hg : h.free a = some g) (hne : b ≠ a) : g.load b = h.load b := by
  rw [free] at hg
  split at hg
  · cases hg
    exact AList.lookup_erase_ne hne
  · cases hg

/-! ## What holds of every record -/

/-- `p` holds of every record of the heap. -/
def Each (p : ν → Prop) (h : Heap ν) : Prop := ∀ a n, h.load a = some n → p n

variable {p q : ν → Prop}

theorem Each.mono (he : Each p h) (hpq : ∀ n, p n → q n) : Each q h := fun a n hn => hpq n (he a n hn)

theorem Each.modify (he : Each p h) (hg : h.modify a f = some g) (hf : ∀ n, p n → p (f n)) : Each p g := by
  intro b n hb
  by_cases hba : b = a
  · subst hba
    rw [load_modify hg] at hb
    obtain ⟨m, hm, rfl⟩ := Option.map_eq_some_iff.1 hb
    exact hf m (he b m hm)
  · exact he b n ((load_modify_ne hg hba).symm.trans hb)

theorem Each.malloc (he : Each p h) (hg : h.malloc a n = some g) (hn : p n) : Each p g := by
  intro b m hb
  by_cases hba : b = a
  · subst hba
    obtain rfl := Option.some.inj ((load_malloc hg).symm.trans hb)
    exact hn
  · exact he b m ((load_malloc_ne hg hba).symm.trans hb)

theorem Each.free (he : Each p h) (hg : h.free a = some g) : Each p g := by
  intro b m hb
  by_cases hba : b = a
  · rw [hba, load_free hg] at hb
    cases hb
  · exact he b m ((load_free_ne hg hba).symm.trans hb)

/-! ## Its size -/

theorem size_malloc (hg : h.malloc a n = some g) : g.size = h.size + 1 := by
  have hfresh : a ∉ h.keys := fun ha => not_mem_of_malloc hg (AList.mem_keys.2 ha)
  rw [malloc, if_neg (not_mem_of_malloc hg), Option.some.injEq] at hg
  rw [← hg, size, AList.keys_insert, List.erase_of_not_mem hfresh, List.length_cons, size]

theorem size_modify (hg : h.modify a f = some g) : g.size = h.size := by
  obtain ⟨n, hn, rfl⟩ := Option.map_eq_some_iff.1 hg
  have ha : a ∈ h.keys := AList.mem_keys.1 (mem_of_load hn)
  have hpos := List.length_pos_of_mem ha
  rw [size, AList.keys_insert, List.length_cons, List.length_erase_of_mem ha, size]
  omega

/-- Distinct addresses that hold records are at most as many as the records. -/
theorem length_le_size {as : List Addr} (hnd : as.Nodup) (has : ∀ a ∈ as, (h.load a).isSome) : as.length ≤ h.size := by
  have hsub : as ⊆ h.keys := by
    intro a ha
    exact AList.mem_keys.1 (AList.lookup_isSome.1 (has a ha))
  exact (List.subperm_of_subset hnd hsub).length_le

end Heap
end Eltex
