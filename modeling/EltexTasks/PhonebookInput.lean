import EltexTasks.PhonebookSearch
/-!
# PhonebookInput — an entry typed in

`phonebook_entry_input` reads three lines with `fgets`, which keeps the newline: it is stored with the text and compared
by the search.  A line too long for the array is read in pieces, and the pieces fill the fields after it.  So what is
stored is never the text of three lines (`entersTyped_iff`).
-/
namespace Eltex
namespace Pb

/-- The strings in the arrays of `phonebook_entry_input` before anything is read into them. -/
structure Arrays where
  firstName : CString
  lastName : CString
  phoneNumber : CString

/-- `fgets(arr, ARR_SIZE, stdin)`: at the end of the input the array stays as it is. -/
def inputField (arr : CString) (stdin : List Byte) : CString × List Byte :=
  match fgets arrSize stdin with
  | none => (arr, stdin)
  | some (bytes, rest) => (cstr bytes, rest)

/-- `phonebook_entry_input`, where `malloc` returns `pentry` with the contents `raw`. -/
def phonebookEntryInput (pb : Phonebook) (heap : Heap PhonebookEntry) (pentry : Addr) (raw : PhonebookEntry)
    (arrays : Arrays) (stdin : List Byte) : Option (Phonebook × Heap PhonebookEntry × List Byte) :=
  let (firstName, stdin) := inputField arrays.firstName stdin
  let (lastName, stdin) := inputField arrays.lastName stdin
  let (phoneNumber, stdin) := inputField arrays.phoneNumber stdin
  (phonebookAddEntry pb heap pentry raw firstName lastName phoneNumber).map fun (pb, heap) => (pb, heap, stdin)

/-- Three lines, and what comes after them. -/
def threeLines (first last number rest : List Byte) : List Byte :=
  first ++ newline :: (last ++ newline :: (number ++ newline :: rest))

/-- A search finds the entry with this id: it is in one cell of every array that has this cell. -/
def Finds (pb : Phonebook) (heap : Heap PhonebookEntry) (firstName lastName : CString) (id : Nat) : Prop :=
  ∃ i, ∀ arr : List Nat, i < arr.length →
    ∃ found, phonebookSearch pb heap firstName lastName arr = some found ∧ found[i]? = some id

/-- **The entry typed in is the entry stored**: the three lines are consumed, their texts are the fields, and a search
for the names typed finds the entry. -/
def EntersTyped (pb : Phonebook) (heap : Heap PhonebookEntry) (pentry : Addr) (raw : PhonebookEntry) (arrays : Arrays)
    (first last number rest : List Byte) : Prop :=
  ∃ pb' g id, phonebookEntryInput pb heap pentry raw arrays (threeLines first last number rest) = some (pb', g, rest) ∧
    dataAt g pentry = some ⟨id, stored (cstr first), stored (cstr last), stored (cstr number)⟩ ∧
    ((cstr first).length < arrSize → (cstr last).length < arrSize → Finds pb' g (cstr first) (cstr last) id)

/-! ## One line -/

/-- A line that fits is consumed, its newline is kept; a longer one leaves its newline behind. -/
theorem inputField_line (arr : CString) {line : List Byte} (hnl : newline ∉ line) (rest : List Byte) :
    (line.length ≤ 18 ∧ inputField arr (line ++ newline :: rest) = (cstr (line ++ [newline]), rest)) ∨
      (18 < line.length ∧ (inputField arr (line ++ newline :: rest)).2.count newline = rest.count newline + 1) := by
  by_cases hlen : line.length ≤ 18
  · left
    rw [inputField, fgets_line hnl (Nat.succ_le_succ hlen)]
    exact ⟨hlen, rfl⟩
  · right
    have hsplit : line ++ newline :: rest = line.take 19 ++ (line.drop 19 ++ newline :: rest) := by
      rw [← List.append_assoc, List.take_append_drop]
    have hpiece : (line.take 19).length = arrSize - 1 := by
      rw [List.length_take, arrSize]
      omega
    have hne : line.take 19 ≠ [] := by
      rw [← List.length_pos_iff, hpiece]
      decide
    have hcut := fgets_cut (fun h => hnl (List.mem_of_mem_take h)) hne hpiece (line.drop 19 ++ newline :: rest)
    rw [inputField, hsplit, hcut]
    have hdrop : (line.drop 19).count newline = 0 := List.count_eq_zero.2 fun h => hnl (List.mem_of_mem_drop h)
    refine ⟨by omega, ?_⟩
    rw [List.count_append, hdrop, List.count_cons_self, Nat.zero_add]

/-- One call of `fgets` consumes at most one newline. -/
theorem count_inputField (arr : CString) (stdin : List Byte) :
    stdin.count newline ≤ (inputField arr stdin).2.count newline + 1 := by
  cases hidx : strchr stdin newline with
  | none =>
    rw [List.count_eq_zero.2 (List.idxOf?_eq_none_iff.1 hidx)]
    exact Nat.zero_le _
  | some n =>
    obtain ⟨hsplit, hnl⟩ := split_of_strchr hidx
    have hcount : stdin.count newline = (stdin.drop (n + 1)).count newline + 1 := by
      conv => lhs; rw [hsplit]
      rw [List.count_append, List.count_eq_zero.2 hnl, List.count_cons_self, Nat.zero_add]
    have hline := inputField_line arr hnl (stdin.drop (n + 1))
    rw [← hsplit] at hline
    rcases hline with ⟨-, hfield⟩ | ⟨-, hleft⟩
    · rw [hfield]
      exact Nat.le_of_eq hcount
    · omega

theorem cstr_append_of_mem {s : List Byte} (h : 0 ∈ s) (t : List Byte) : cstr (s ++ t) = cstr s := by
  have hlen : (s.takeWhile (· != 0)).length ≠ s.length := by
    intro heq
    have hall := (List.takeWhile_prefix (· != (0 : Byte))).eq_of_length heq
    rw [List.takeWhile_eq_self_iff] at hall
    exact absurd (hall 0 h) (by decide)
  rw [cstr, cstr, List.takeWhile_append, if_neg hlen]

/-- The newline is part of what is stored, unless a NUL comes before it. -/
theorem stored_newline_iff {line : List Byte} (hlen : line.length ≤ 18) :
    stored (cstr (line ++ [newline])) = stored (cstr line) ↔ 0 ∈ line := by
  constructor
  · intro heq
    by_contra h0
    have hfull : cstr (line ++ [newline]) = line ++ [newline] := by
      apply cstr_eq_self
      rw [List.mem_append, not_or]
      exact ⟨h0, by decide⟩
    have hshort : (line ++ [newline]).length < arrSize := by
      rw [List.length_append, List.length_singleton, arrSize]
      omega
    rw [hfull, cstr_eq_self h0, stored, stored, if_pos hshort, if_pos (by rw [arrSize]; omega)] at heq
    have := congrArg List.length heq
    rw [List.length_append, List.length_singleton] at this
    omega
  · intro h0
    rw [cstr_append_of_mem h0]

/-! ## Three lines -/

/-- Three calls consume the three lines when each of them fits, and only then: each call consumes one newline at
most. -/
theorem inputFields_threeLines {first last number : List Byte} (h₁ : newline ∉ first) (h₂ : newline ∉ last)
    (h₃ : newline ∉ number) (arrays : Arrays) (rest : List Byte) :
    ((first.length ≤ 18 ∧ last.length ≤ 18 ∧ number.length ≤ 18) ∧
        inputField arrays.firstName (threeLines first last number rest) =
          (cstr (first ++ [newline]), last ++ newline :: (number ++ newline :: rest)) ∧
        inputField arrays.lastName (last ++ newline :: (number ++ newline :: rest)) =
          (cstr (last ++ [newline]), number ++ newline :: rest) ∧
        inputField arrays.phoneNumber (number ++ newline :: rest) = (cstr (number ++ [newline]), rest)) ∨
      ¬ (first.length ≤ 18 ∧ last.length ≤ 18 ∧ number.length ≤ 18) ∧
        (inputField arrays.phoneNumber (inputField arrays.lastName
          (inputField arrays.firstName (threeLines first last number rest)).2).2).2 ≠ rest := by
  have hlast := count_inputField arrays.phoneNumber (inputField arrays.lastName
    (inputField arrays.firstName (threeLines first last number rest)).2).2
  have hmiddle := count_inputField arrays.lastName (inputField arrays.firstName (threeLines first last number rest)).2
  unfold threeLines at *
  rcases inputField_line arrays.firstName h₁ (last ++ newline :: (number ++ newline :: rest)) with
    ⟨hlen₁, hfield₁⟩ | ⟨hlong, hleft₁⟩
  · rw [hfield₁] at hlast ⊢
    rcases inputField_line arrays.lastName h₂ (number ++ newline :: rest) with ⟨hlen₂, hfield₂⟩ | ⟨hlong, hleft₂⟩
    · rw [hfield₂] at hlast ⊢
      rcases inputField_line arrays.phoneNumber h₃ rest with ⟨hlen₃, hfield₃⟩ | ⟨hlong, hleft₃⟩
      · exact .inl ⟨⟨hlen₁, hlen₂, hlen₃⟩, rfl, rfl, hfield₃⟩
      · refine .inr ⟨by omega, fun heq => ?_⟩
        rw [show (inputField arrays.phoneNumber (number ++ newline :: rest)).2 = rest from heq] at hleft₃
        omega
    · refine .inr ⟨by omega, fun heq => ?_⟩
      rw [List.count_append, List.count_cons_self] at hleft₂
      simp only [heq] at hlast
      omega
  · refine .inr ⟨by omega, fun heq => ?_⟩
    rw [List.count_append, List.count_cons_self, List.count_append, List.count_cons_self] at hleft₁
    rw [heq] at hlast
    omega

/-! ## The entry -/

variable {heap g : Heap PhonebookEntry} {a : Addr} {as : List Addr}

/-- The entry at the end of the book is found by its names. -/
theorem finds_last {pb : Phonebook} (h : Linked pb g (as ++ [a])) {d : EntryData} (hdata : dataAt g a = some d) :
    Finds pb g d.firstName d.lastName d.id := by
  have hids : matchingIds g (as ++ [a]) d.firstName d.lastName = matchingIds g as d.firstName d.lastName ++ [d.id] := by
    simp [matchingIds, List.filterMap_append, hdata]
  refine ⟨(matchingIds g as d.firstName d.lastName).length, fun arr hlt => ⟨_, phonebookSearch_eq h _ _ arr, ?_⟩⟩
  have htake : (matchingIds g as d.firstName d.lastName).length < ((matchingIds g as d.firstName d.lastName ++
      [d.id]).take arr.length).length := by
    rw [List.length_take, List.length_append, List.length_singleton]
    omega
  rw [hids, List.getElem?_append_left htake, List.getElem?_take_of_lt hlt, List.getElem?_concat_length]

/-- **What is stored are the three lines typed** exactly when each of them has at most 18 bytes and a NUL among them, so
that the newline `fgets` keeps is behind the end of the string. -/
theorem entersTyped_iff {pb : Phonebook} (h : Linked pb heap as) (ha : a ∉ heap) (raw : PhonebookEntry)
    (arrays : Arrays) (first last number rest : List Byte) (h₁ : newline ∉ first) (h₂ : newline ∉ last)
    (h₃ : newline ∉ number) :
    EntersTyped pb heap a raw arrays first last number rest ↔
      ∀ line ∈ [first, last, number], line.length ≤ 18 ∧ 0 ∈ line := by
  rcases inputFields_threeLines h₁ h₂ h₃ arrays rest with ⟨⟨hlen₁, hlen₂, hlen₃⟩, hf₁, hf₂, hf₃⟩ | ⟨hlong, hleft⟩
  · have hinput : phonebookEntryInput pb heap a raw arrays (threeLines first last number rest) =
        (phonebookAddEntry pb heap a raw (cstr (first ++ [newline])) (cstr (last ++ [newline]))
          (cstr (number ++ [newline]))).map fun r => (r.1, r.2, rest) := by
      simp only [phonebookEntryInput, hf₁, hf₂, hf₃]
    obtain ⟨g, hadd, hchain, -, hdata⟩ := addEntry_spec h ha raw (cstr (first ++ [newline])) (cstr (last ++ [newline]))
      (cstr (number ++ [newline]))
    rw [hadd, Option.map_some] at hinput
    rw [List.forall_mem_cons, List.forall_mem_cons, List.forall_mem_singleton, and_iff_right hlen₁, and_iff_right hlen₂,
      and_iff_right hlen₃, ← stored_newline_iff hlen₁, ← stored_newline_iff hlen₂, ← stored_newline_iff hlen₃]
    constructor
    · rintro ⟨pb', g', id, hinput', hdata', -⟩
      rw [hinput] at hinput'
      obtain ⟨-, hg⟩ := Prod.mk.inj (Option.some.inj hinput')
      rw [← (Prod.mk.inj hg).1, hdata] at hdata'
      obtain ⟨-, hs₁, hs₂, hs₃⟩ := EntryData.mk.inj (Option.some.inj hdata')
      exact ⟨hs₁, hs₂, hs₃⟩
    · rintro ⟨hs₁, hs₂, hs₃⟩
      rw [hs₁, hs₂, hs₃] at hdata
      refine ⟨_, g, _, hinput, hdata, fun hfirst hlast => ?_⟩
      have hlinked : Linked ⟨(as ++ [a]).head?, (pb.size + 1) % sizeValues, (pb.latestId + 1) % sizeValues⟩ g
          (as ++ [a]) := ⟨hchain, h.nodup_concat ha, rfl⟩
      have hfinds := finds_last hlinked hdata
      simp only [stored, if_pos hfirst, if_pos hlast] at hfinds
      exact hfinds
  · refine iff_of_false ?_ ?_
    · rintro ⟨pb', g', id, hinput, -⟩
      obtain ⟨r, -, hr⟩ := Option.map_eq_some_iff.1 hinput
      exact hleft (Prod.mk.inj (Prod.mk.inj hr).2).2
    · intro hall
      exact hlong ⟨(hall first (by simp)).1, (hall last (by simp)).1, (hall number (by simp)).1⟩

/-- Three lines that are empty for the program: each begins with a NUL. -/
theorem entersTyped_nuls :
    EntersTyped phonebookCreate ∅ 1 default ⟨[], [], []⟩ [0] [0] [0] [] :=
  (entersTyped_iff linked_create (AList.notMem_empty 1) default ⟨[], [], []⟩ [0] [0] [0] []
    (by decide) (by decide) (by decide)).2 (by decide)

/-- **The names a and b and the number 7** are stored with a newline each. -/
theorem newline_is_stored :
    ¬ EntersTyped phonebookCreate ∅ 1 default ⟨[], [], []⟩ (str ['a']) (str ['b']) (str ['7']) [] := by
  rintro ⟨pb', g, id, hinput, hdata, -⟩
  have hstored : ((phonebookEntryInput phonebookCreate ∅ 1 default ⟨[], [], []⟩
      (threeLines (str ['a']) (str ['b']) (str ['7']) [])).bind fun r => dataAt r.2.1 1) =
      some ⟨0, str ['a', '\n'], str ['b', '\n'], str ['7', '\n']⟩ := by
    decide
  rw [hinput, Option.bind_some, hdata] at hstored
  exact absurd (EntryData.mk.inj (Option.some.inj hstored)).2.1 (by decide)

end Pb
end Eltex
