import EltexTasks.PhonebookSearch
/-!
# PhonebookDelete — deleting a whole book

`phonebook_delete` frees the entries from the first on.  The entry after a freed one still points back at it, and
`phonebook_delete_entry` writes through that pointer as soon as there is an entry behind as well: a book of three
entries is enough (`deletesCleanly_iff`).
-/
namespace Eltex
namespace Pb

open Run (run)

/-- `phonebook_delete` uses no freed memory and frees every entry and the book once. -/
def DeletesCleanly (s : Book) : Prop :=
  ∃ heap blocks, phonebookDelete s.pb s.heap = some (heap, blocks) ∧
    blocks.Perm (.book :: s.live.map .entry) ∧ ∀ a ∈ s.live, a ∉ heap

variable {heap g : Heap PhonebookEntry} {a b c : Addr} {e : PhonebookEntry}

/-- An entry with a NULL pointer is freed, and its neighbours are left alone. -/
theorem deleteEntry_of_null (pb : Phonebook) (he : heap.load a = some e)
    (hnull : e.prevEntry = none ∨ e.nextEntry = none) (hg : heap.free a = some g) : phonebookDeleteEntry pb heap a =
      some ({ pb with firstEntry := none, size := (pb.size + sizeValues - 1) % sizeValues }, g) := by
  simp only [phonebookDeleteEntry, he, Option.bind_eq_bind, Option.bind_some, if_pos hnull, hg]

/-- An entry behind a freed one, and before another, is not freed: the write to the freed one comes first. -/
theorem deleteEntry_dangling (pb : Phonebook) (hb : heap.load b = some e) (hprev : e.prevEntry = some a)
    (hnext : e.nextEntry = some c) (hac : a ≠ c) (ha : heap.load a = none) : phonebookDeleteEntry pb heap b = none := by
  have hwrite : ∀ k, heap.modify c (fun e => { e with prevEntry := some a }) = some k →
      k.modify a (fun e => { e with nextEntry := some c }) = none := by
    intro k hk
    rw [Heap.modify, Heap.load_modify_ne hk hac, ha, Option.map_none]
  simp only [phonebookDeleteEntry, hb, hprev, hnext, Option.bind_eq_bind, Option.bind_some, Heap.assign, reduceCtorEq,
    or_self, if_false]
  cases hk : heap.modify c (fun e => { e with prevEntry := some a }) with
  | none => rfl
  | some k => simp [hwrite k hk]

/-- A round of the loop of `phonebook_delete` at the first entry. -/
theorem deleteLoop_first (pb : Phonebook) {as : List Addr} (hchain : entryLinks.Chain heap none (a :: as) none)
    (hnot : a ∉ as) (fuel : Nat) :
    ∃ pb' g, heap.free a = some g ∧ entryLinks.Chain g (some a) as none ∧
      phonebookDeleteLoop (fuel + 1) pb heap (some a) =
        (phonebookDeleteLoop fuel pb' g as.head?).map fun r => (r.1, a :: r.2) := by
  obtain ⟨⟨e, he, hprev, hnext⟩, hrest⟩ := hchain
  rw [Option.or_none] at hnext
  obtain ⟨g, hg⟩ := Heap.exists_free (Heap.mem_of_load he)
  have hdel := deleteEntry_of_null pb he (.inl hprev) hg
  refine ⟨{ pb with firstEntry := none, size := (pb.size + sizeValues - 1) % sizeValues }, g, hg, ?_, ?_⟩
  · apply hrest.congr
    intro b hb
    exact Heap.load_free_ne hg fun hba => hnot (hba ▸ hb)
  · have hhead : e.nextEntry = as.head? := hnext
    simp only [phonebookDeleteLoop, he, hdel, Option.bind_eq_bind, Option.bind_some, hhead]
    cases phonebookDeleteLoop fuel _ g as.head? with
    | none => rfl
    | some r => rfl

/-- A round at the last entry, behind a freed one. -/
theorem deleteLoop_last (pb : Phonebook) {p : Option Addr} (hchain : entryLinks.Chain heap p [b] none) (fuel : Nat) :
    ∃ g, heap.free b = some g ∧ phonebookDeleteLoop (fuel + 1) pb heap (some b) = some (g, [b]) := by
  obtain ⟨⟨e, he, -, hnext⟩, -⟩ := hchain
  obtain ⟨g, hg⟩ := Heap.exists_free (Heap.mem_of_load he)
  have hnext : e.nextEntry = none := hnext
  have hdel := deleteEntry_of_null pb he (.inr hnext) hg
  refine ⟨g, hg, ?_⟩
  simp only [phonebookDeleteLoop, he, hdel, Option.bind_eq_bind, Option.bind_some, hnext]

/-- A round at an entry between a freed one and another. -/
theorem deleteLoop_dangling (pb : Phonebook) {as : List Addr}
    (hchain : entryLinks.Chain heap (some a) (b :: c :: as) none) (hac : a ≠ c) (ha : heap.load a = none) (fuel : Nat) :
    phonebookDeleteLoop fuel pb heap (some b) = none := by
  obtain ⟨⟨e, he, hprev, hnext⟩, -⟩ := hchain
  have hdel := deleteEntry_dangling pb he hprev hnext hac ha
  cases fuel with
  | zero => rfl
  | succ fuel => simp only [phonebookDeleteLoop, he, hdel, Option.bind_eq_bind, Option.bind_some, Option.bind_none]

/-! ## The whole book -/

theorem not_mem_of_load (h : heap.load a = none) : a ∉ heap := AList.lookup_eq_none.1 h

/-- At most two entries are freed, and then the book. -/
theorem phonebookDelete_few {pb : Phonebook} {as : List Addr} (h : Linked pb heap as) (hlen : as.length ≤ 2) :
    ∃ g, phonebookDelete pb heap = some (g, as.map .entry ++ [.book]) ∧ ∀ a ∈ as, a ∉ g := by
  have hsize := h.length_le
  obtain ⟨hchain, hnd, hfirst⟩ := h
  unfold phonebookDelete
  rw [hfirst]
  match as with
  | [] =>
    refine ⟨heap, ?_, nofun⟩
    cases heap.size <;> rfl
  | [a] =>
    obtain ⟨fuel, hfuel⟩ := Nat.exists_eq_add_of_le hsize
    obtain ⟨g, hg, hloop⟩ := deleteLoop_last pb hchain fuel
    rw [hfuel, Nat.add_comm]
    refine ⟨g, by rw [List.head?_cons, List.length_singleton, hloop]; rfl, fun b hb => ?_⟩
    rw [List.mem_singleton.1 hb]
    exact not_mem_of_load (Heap.load_free hg)
  | [a, b] =>
    obtain ⟨fuel, hfuel⟩ := Nat.exists_eq_add_of_le hsize
    have hab : a ≠ b := by
      rintro rfl
      simp at hnd
    obtain ⟨pb', g₁, hg₁, hchain₁, hloop₁⟩ := deleteLoop_first pb hchain (by simpa using hab) (fuel + 1)
    obtain ⟨g₂, hg₂, hloop₂⟩ := deleteLoop_last pb' hchain₁ fuel
    have hfuel : heap.size = fuel + 1 + 1 := by rw [hfuel, Nat.add_comm]; rfl
    rw [hfuel]
    refine ⟨g₂, by rw [List.head?_cons, hloop₁, List.head?_cons, hloop₂]; rfl, fun d hd => ?_⟩
    rcases List.mem_cons.1 hd with rfl | hd
    · exact not_mem_of_load ((Heap.load_free_ne hg₂ hab).trans (Heap.load_free hg₁))
    · rw [List.mem_singleton.1 hd]
      exact not_mem_of_load (Heap.load_free hg₂)

/-- With three entries the second one's previous pointer is written through after the first one is freed. -/
theorem phonebookDelete_many {pb : Phonebook} {as : List Addr} (h : Linked pb heap as) (hlen : 3 ≤ as.length) :
    phonebookDelete pb heap = none := by
  have hsize := h.length_le
  obtain ⟨hchain, hnd, hfirst⟩ := h
  match as with
  | a :: b :: c :: as =>
    obtain ⟨fuel, hfuel⟩ := Nat.exists_eq_add_of_le (Nat.le_trans (Nat.succ_le_succ (Nat.zero_le _)) hsize)
    have hnot : a ∉ b :: c :: as := (List.nodup_cons.1 hnd).1
    have hac : a ≠ c := by
      rintro rfl
      exact hnot (by simp)
    obtain ⟨pb', g, hg, hchain', hloop⟩ := deleteLoop_first pb hchain hnot fuel
    have hdangling := deleteLoop_dangling pb' hchain' hac (Heap.load_free hg) fuel
    rw [phonebookDelete, hfirst, hfuel, Nat.add_comm, List.head?_cons, hloop, List.head?_cons, hdangling]
    rfl

/-- **`phonebook_delete` releases a book of added entries cleanly** exactly when it has at most two. -/
theorem deletesCleanly_iff (calls : List Call) (hfresh : (calls.map Call.pentry).Nodup) :
    ∃ s, run step create (calls.map Call.op) = some s ∧ (DeletesCleanly s ↔ calls.length ≤ 2) := by
  obtain ⟨s, hrun, h⟩ := exists_history calls hfresh
  refine ⟨s, hrun, ?_⟩
  have hlen : (calls.map Call.pentry).length = calls.length := List.length_map _
  constructor
  · rintro ⟨g, blocks, hdel, -⟩
    by_contra hlong
    rw [phonebookDelete_many h.linked (by omega)] at hdel
    cases hdel
  · intro hshort
    obtain ⟨g, hdel, hfreed⟩ := phonebookDelete_few h.linked (by omega)
    rw [← h.live] at hdel hfreed
    exact ⟨g, _, hdel, List.perm_append_singleton _ _, hfreed⟩

theorem deletesCleanly_two : ∃ s, run step create ((threeCalls.take 2).map Call.op) = some s ∧ DeletesCleanly s := by
  obtain ⟨s, hrun, hclean⟩ := deletesCleanly_iff (threeCalls.take 2) (by decide)
  exact ⟨s, hrun, hclean.2 (by decide)⟩

/-- **Three entries**: deleting the second one writes to the first one, which is freed. -/
theorem third_entry_faults :
    ∃ s, run step create (threeCalls.map Call.op) = some s ∧ ¬ DeletesCleanly s := by
  have hnone : (phonebookDelete ((run step create (threeCalls.map Call.op)).get rfl).pb
      ((run step create (threeCalls.map Call.op)).get rfl).heap).isNone = true := by
    decide +kernel
  refine ⟨(run step create (threeCalls.map Call.op)).get rfl, (Option.some_get rfl).symm, ?_⟩
  rintro ⟨g, blocks, hdel, -⟩
  rw [hdel] at hnone
  cases hnone

end Pb
end Eltex
