import EltexTasks.PhonebookOrder
/-!
# PhonebookSearch — the search against the history of additions

After any calls of `phonebook_add_entry` the book links their entries in order, each with its number as its id and with
the fields the calls were given (`exists_history`).  `phonebook_search` writes the ids of the matching ones from the
beginning of the array until it is full (`search_history`).
-/
namespace Eltex
namespace Pb

open Run (run)

/-- A call of `phonebook_add_entry`, in which `malloc` returns `pentry`, a pointer other than NULL, with the contents
`raw`. -/
structure Call where
  pentry : Addr
  raw : PhonebookEntry
  firstName : CString
  lastName : CString
  phoneNumber : CString
  pointer : 0 < pentry ∧ pentry < sizeValues

def Call.op (c : Call) : Op := .add c.pentry c.raw c.firstName c.lastName c.phoneNumber

/-- What the `i`-th call stores. -/
def Call.data (c : Call) (i : Nat) : EntryData := ⟨i, stored c.firstName, stored c.lastName, stored c.phoneNumber⟩

/-- The book after the calls. -/
structure History (calls : List Call) (s : Book) : Prop where
  linked : Linked s.pb s.heap (calls.map Call.pentry)
  live : s.live = calls.map Call.pentry
  data : ∀ i (c : Call), calls[i]? = some c → dataAt s.heap c.pentry = some (c.data i)
  only : ∀ a ∈ s.heap, a ∈ calls.map Call.pentry
  latestId : s.pb.latestId = calls.length

/-- The calls that match, by their numbers. -/
def matchingCalls (calls : List Call) (firstName lastName : CString) : List Nat :=
  (calls.zipIdx.filter fun c => stored c.1.firstName == firstName && stored c.1.lastName == lastName).map Prod.snd

/-- The ids of the entries `as` that match. -/
def matchingIds (heap : Heap PhonebookEntry) (as : List Addr) (firstName lastName : CString) : List Nat :=
  ((as.filterMap (dataAt heap)).filter fun d => d.firstName == firstName && d.lastName == lastName).map (·.id)

variable {heap : Heap PhonebookEntry}

/-! ## The book after the calls -/

/-- There are fewer calls than pointers. -/
theorem length_calls_lt {calls : List Call} (h : (calls.map Call.pentry).Nodup) : calls.length < sizeValues := by
  have hpos : 1 ≤ sizeValues := by decide
  have hsub : calls.map Call.pentry ⊆ List.range' 1 (sizeValues - 1) := by
    intro a ha
    obtain ⟨c, -, rfl⟩ := List.mem_map.1 ha
    rw [List.mem_range'_1, Nat.add_sub_cancel' hpos]
    exact c.pointer
  have hle := (List.subperm_of_subset h hsub).length_le
  rw [List.length_map, List.length_range'] at hle
  omega

theorem history_create : History [] create where
  linked := linked_create
  live := rfl
  data i c h := by cases h
  only a h := absurd h (AList.notMem_empty a)
  latestId := rfl

theorem History.add {calls : List Call} {s : Book} (h : History calls s) (c : Call)
    (hfresh : ((calls ++ [c]).map Call.pentry).Nodup) :
    ∃ t, step s c.op = some t ∧ History (calls ++ [c]) t := by
  have hlen := length_calls_lt hfresh
  rw [List.length_append, List.length_singleton] at hlen
  rw [List.map_append, List.map_singleton] at hfresh
  have hnot : c.pentry ∉ calls.map Call.pentry := fun hmem =>
    (List.nodup_append.1 hfresh).2.2 _ hmem _ (List.mem_singleton_self _) rfl
  have hnew : c.pentry ∉ s.heap := fun hmem => hnot (h.only _ hmem)
  obtain ⟨g, hadd, hchain, hold, hdata⟩ := addEntry_spec h.linked hnew c.raw c.firstName c.lastName c.phoneNumber
  let pb : Phonebook := ⟨(calls.map Call.pentry ++ [c.pentry]).head?, (s.pb.size + 1) % sizeValues,
    (s.pb.latestId + 1) % sizeValues⟩
  refine ⟨⟨pb, g, s.live ++ [c.pentry]⟩, ?_, ?_⟩
  · rw [Call.op, step, hadd]
    rfl
  constructor
  case linked =>
    rw [List.map_append, List.map_singleton]
    exact ⟨hchain, hfresh, rfl⟩
  case live => rw [h.live, List.map_append, List.map_singleton]
  case data =>
    intro i d hd
    rcases Nat.lt_trichotomy i calls.length with hi | rfl | hi
    · rw [List.getElem?_append_left hi] at hd
      have hne : d.pentry ≠ c.pentry := fun heq => hnot (heq ▸ List.mem_map_of_mem (List.mem_of_getElem? hd))
      rw [hold _ hne]
      exact h.data i d hd
    · rw [List.getElem?_concat_length] at hd
      rw [← Option.some.inj hd, hdata, h.latestId]
      rfl
    · rw [List.getElem?_eq_none (by rw [List.length_append, List.length_singleton]; omega)] at hd
      cases hd
  case only =>
    intro a ha
    rw [List.map_append, List.map_singleton, List.mem_append, List.mem_singleton]
    by_cases hac : a = c.pentry
    · exact .inr hac
    · refine .inl (h.only a ?_)
      rw [← AList.lookup_isSome] at ha ⊢
      have := congrArg Option.isSome (hold a hac)
      rw [dataAt, dataAt, Option.isSome_map, Option.isSome_map] at this
      exact this ▸ ha
  case latestId =>
    rw [List.length_append, List.length_singleton]
    show (s.pb.latestId + 1) % sizeValues = _
    rw [h.latestId, Nat.mod_eq_of_lt hlen]

/-- **The book after any calls** for which `malloc` returns memory not in use. -/
theorem exists_history (calls : List Call) (hfresh : (calls.map Call.pentry).Nodup) :
    ∃ s, run step create (calls.map Call.op) = some s ∧ History calls s := by
  induction calls using List.reverseRecOn with
  | nil => exact ⟨create, rfl, history_create⟩
  | append_singleton calls c ih =>
    have hpre : (calls.map Call.pentry).Nodup := by
      rw [List.map_append] at hfresh
      exact (List.nodup_append.1 hfresh).1
    obtain ⟨s, hrun, hs⟩ := ih hpre
    obtain ⟨t, hstep, ht⟩ := hs.add c hfresh
    refine ⟨t, ?_, ht⟩
    rw [List.map_append, List.map_singleton, Run.run_concat, hrun]
    exact hstep

/-! ## The search -/

/-- The array after `ids` have been found, the first of them stored at `found`. -/
def overwritten (returnArray : List Nat) (found : Nat) (ids : List Nat) : List Nat :=
  returnArray.take found ++ ids.take (returnArray.length - found) ++ returnArray.drop (found + ids.length)

theorem overwritten_nil (arr : List Nat) (found : Nat) : overwritten arr found [] = arr := by
  simp [overwritten]

theorem overwritten_cons {arr : List Nat} {found : Nat} (h : found < arr.length) (id : Nat) (ids : List Nat) :
    overwritten arr found (id :: ids) = overwritten (arr.set found id) (found + 1) ids := by
  have hroom : arr.length - found = (arr.length - (found + 1)) + 1 := by omega
  have htake : (arr.set found id).take (found + 1) = arr.take found ++ [id] := by
    rw [List.take_add_one, List.take_set_of_le (Nat.le_refl _), List.getElem?_set_self h]
    rfl
  have hdrop : (arr.set found id).drop (found + 1 + ids.length) = arr.drop (found + 1 + ids.length) := by
    rw [List.drop_set_of_lt (by omega)]
  rw [overwritten, overwritten, htake, hdrop, List.length_set, hroom, List.take_succ_cons, List.length_cons]
  simp [Nat.add_comm, Nat.add_left_comm]

/-- No cell is left. -/
theorem overwritten_full {arr : List Nat} {found : Nat} (h : arr.length ≤ found) (ids : List Nat) :
    overwritten arr found ids = arr := by
  rw [overwritten, List.take_of_length_le h, List.drop_eq_nil_of_le (by omega), Nat.sub_eq_zero_of_le h]
  simp

theorem searchLoop_chain {firstName lastName : CString} : ∀ (as : List Addr) (fuel : Nat) (p : Option Addr)
    (arr : List Nat) (found : Nat), entryLinks.Chain heap p as none → as.length ≤ fuel → found < arr.length →
    searchLoop heap firstName lastName fuel as.head? arr found =
      some (overwritten arr found (matchingIds heap as firstName lastName))
  | [], fuel, _, arr, found, _, _, _ => by
    rw [show matchingIds heap [] firstName lastName = [] from rfl, overwritten_nil]
    cases fuel <;> rfl
  | a :: as, 0, _, _, _, _, hlen, _ => absurd hlen (Nat.not_succ_le_zero _)
  | a :: as, fuel + 1, p, arr, found, ⟨⟨e, he, _, hnext⟩, hrest⟩, hlen, hfound => by
    have ih : ∀ arr found, found < arr.length → searchLoop heap firstName lastName fuel as.head? arr found =
        some (overwritten arr found (matchingIds heap as firstName lastName)) := fun arr found =>
      searchLoop_chain as fuel (some a) arr found hrest (Nat.le_of_succ_le_succ hlen)
    rw [Option.or_none] at hnext
    have hdata : dataAt heap a = some e.data := by rw [dataAt, he]; rfl
    rw [List.head?_cons, searchLoop, he, Option.bind_some, show e.nextEntry = as.head? from hnext]
    by_cases hmatch : e.firstName = firstName ∧ e.lastName = lastName
    · have hids : matchingIds heap (a :: as) firstName lastName = e.id :: matchingIds heap as firstName lastName := by
        simp [matchingIds, hdata, PhonebookEntry.data, hmatch]
      rw [if_pos hmatch, writeCell, if_pos hfound, Option.bind_some, List.length_set, hids, overwritten_cons hfound]
      split
      · rename_i hfull
        rw [overwritten_full (by rw [List.length_set]; exact hfull)]
      · exact ih _ _ (by rw [List.length_set]; omega)
    · have hids : matchingIds heap (a :: as) firstName lastName = matchingIds heap as firstName lastName := by
        rw [matchingIds, matchingIds, List.filterMap_cons, hdata]
        simp [PhonebookEntry.data, hmatch]
      rw [if_neg hmatch, hids]
      exact ih arr found hfound

/-- **The search on a book in order**: the ids of the matching entries from the beginning of the array, as many as there
is room for, and the other cells as they were. -/
theorem phonebookSearch_eq {pb : Phonebook} {as : List Addr} (h : Linked pb heap as) (firstName lastName : CString)
    (arr : List Nat) :
    phonebookSearch pb heap firstName lastName arr =
      some ((matchingIds heap as firstName lastName).take arr.length ++
        arr.drop (matchingIds heap as firstName lastName).length) := by
  have hover : ∀ ids, overwritten arr 0 ids = ids.take arr.length ++ arr.drop ids.length := by
    intro ids
    simp [overwritten]
  rw [← hover, phonebookSearch]
  by_cases hempty : arr.length = 0
  · rw [if_pos hempty, overwritten_full (by omega)]
  · rw [if_neg hempty, h.first]
    exact searchLoop_chain as _ none arr 0 h.chain h.length_le (by omega)

/-! ## Against the history -/

theorem filterMap_eq_zipIdx {α β : Type} {f : α → Option β} {g : α → Nat → β} : ∀ (l : List α) (k : Nat),
    (∀ i x, l[i]? = some x → f x = some (g x (k + i))) → l.filterMap f = (l.zipIdx k).map fun x => g x.1 x.2
  | [], _, _ => rfl
  | x :: l, k, h => by
    have hx := h 0 x rfl
    have ih := filterMap_eq_zipIdx l (k + 1) fun i y hy => by
      rw [Nat.add_assoc, Nat.add_comm 1 i]
      exact h (i + 1) y hy
    rw [List.filterMap_cons, hx, List.zipIdx_cons, List.map_cons, ih]
    rfl

theorem History.matchingIds_eq {calls : List Call} {s : Book} (h : History calls s) (firstName lastName : CString) :
    matchingIds s.heap (calls.map Call.pentry) firstName lastName = matchingCalls calls firstName lastName := by
  have hdata : (calls.map Call.pentry).filterMap (dataAt s.heap) = calls.zipIdx.map fun c => c.1.data c.2 := by
    rw [List.filterMap_map]
    apply filterMap_eq_zipIdx
    intro i c hc
    rw [Nat.zero_add]
    exact h.data i c hc
  rw [matchingIds, hdata, List.filter_map, List.map_map]
  rfl

/-- **Search agrees with the history of additions.**  After any calls each entry holds what its call was given, every
field on its own, and a search overwrites the first cells of the array with the numbers of the matching calls, as many
as there are cells, and leaves the others. -/
theorem search_history (calls : List Call) (hfresh : (calls.map Call.pentry).Nodup) (firstName lastName : CString)
    (arr : List Nat) :
    ∃ s, run step create (calls.map Call.op) = some s ∧
      (∀ i (c : Call), calls[i]? = some c → dataAt s.heap c.pentry = some (c.data i)) ∧
      phonebookSearch s.pb s.heap firstName lastName arr =
        some ((matchingCalls calls firstName lastName).take arr.length ++
          arr.drop (matchingCalls calls firstName lastName).length) := by
  obtain ⟨s, hrun, h⟩ := exists_history calls hfresh
  refine ⟨s, hrun, h.data, ?_⟩
  rw [phonebookSearch_eq h.linked, h.matchingIds_eq]

/-- Two calls with one name and another between them. -/
def threeCalls : List Call :=
  [⟨3, default, str ['a'], str ['b'], str ['7'], by decide⟩, ⟨1, default, str ['c'], str ['b'], str ['8'], by decide⟩,
    ⟨2, default, str ['a'], str ['b'], str ['9'], by decide⟩]

theorem search_history_threeCalls :
    ∃ s, run step create (threeCalls.map Call.op) = some s ∧
      phonebookSearch s.pb s.heap (str ['a']) (str ['b']) [9, 9, 9] = some [0, 2, 9] := by
  obtain ⟨s, hrun, -, hsearch⟩ := search_history threeCalls (by decide) (str ['a']) (str ['b']) [9, 9, 9]
  exact ⟨s, hrun, hsearch.trans (by decide)⟩

end Pb
end Eltex
