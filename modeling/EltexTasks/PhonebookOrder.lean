import EltexTasks.Phonebook
/-!
# PhonebookOrder — the phonebook as an ordered collection

Along a run the book is a chain of the live entries (`BookInv`).  `phonebook_add_entry` links one entry behind the last
(`addEntry_spec`); `phonebook_delete_entry` unlinks an entry between two others, and empties the book for any other one
(`deleteEntry_inner`, `deleteEntry_outer`).
-/
namespace Eltex
namespace Pb

def entryLinks : Links PhonebookEntry where
  prev := (·.prevEntry)
  next := (·.nextEntry)
  setPrev e p := { e with prevEntry := p }
  setNext e p := { e with nextEntry := p }
  prev_setPrev _ _ := rfl
  next_setPrev _ _ := rfl
  prev_setNext _ _ := rfl
  next_setNext _ _ := rfl

/-- The id of the entry at `a`. -/
def idAt (heap : Heap PhonebookEntry) (a : Addr) : Option Nat := (heap.load a).map (·.id)

/-- What an entry holds, its links and counts left out. -/
structure EntryData where
  id : Nat
  firstName : CString
  lastName : CString
  phoneNumber : CString
deriving DecidableEq, Repr

def PhonebookEntry.data (e : PhonebookEntry) : EntryData := ⟨e.id, e.firstName, e.lastName, e.phoneNumber⟩

def dataAt (heap : Heap PhonebookEntry) (a : Addr) : Option EntryData := (heap.load a).map (·.data)

theorem idAt_eq (heap : Heap PhonebookEntry) (a : Addr) : idAt heap a = (dataAt heap a).map (·.id) := by
  rw [idAt, dataAt, Option.map_map]
  rfl

/-- What is stored of a name or number. -/
def stored (s : CString) : CString := if s.length < arrSize then s else []

/-- The book is the live entries in the order of addition, however it is read. -/
structure Ordered (s : Book) : Prop where
  walk : entryLinks.walk s.heap s.heap.size s.pb.firstEntry = some s.live
  head : ∀ a e, s.pb.firstEntry = some a → s.heap.load a = some e → e.prevEntry = none
  neighbours : ∀ i a b, s.live[i]? = some a → s.live[i + 1]? = some b →
    (s.heap.load a).map (·.nextEntry) = some (some b) ∧ (s.heap.load b).map (·.prevEntry) = some (some a)
  size : s.pb.size = s.live.length
  idsDistinct : (s.live.map (idAt s.heap)).Nodup
  idsBelow : ∀ a ∈ s.live, ∃ i, idAt s.heap a = some i ∧ i < s.pb.latestId
  byId : ∀ id, ∃ r, getEntryById s.pb s.heap id = some r ∧ (∀ a, r = some a → a ∈ s.live ∧ idAt s.heap a = some id) ∧
    (r.isSome ↔ ∃ a ∈ s.live, idAt s.heap a = some id)

/-- **The book links the entries `as`**, in this order. -/
structure Linked (pb : Phonebook) (heap : Heap PhonebookEntry) (as : List Addr) : Prop where
  chain : entryLinks.Chain heap none as none
  nodup : as.Nodup
  first : pb.firstEntry = as.head?

structure BookInv (s : Book) : Prop where
  chain : entryLinks.Chain s.heap none s.live none
  nodup : s.live.Nodup
  first : s.pb.firstEntry = s.live.head?
  size : s.pb.size = s.live.length
  idsDistinct : (s.live.map (idAt s.heap)).Nodup
  idsBelow : ∀ a ∈ s.live, ∃ i, idAt s.heap a = some i ∧ i < s.pb.latestId
  few : s.live.length ≤ s.pb.latestId
  latestId : s.pb.latestId < sizeValues

variable {heap g : Heap PhonebookEntry} {a b : Addr} {as : List Addr}

/-! ## The loops over the entries -/

theorem lastEntryLoop_chain : ∀ (as : List Addr) (fuel : Nat) (p last : Option Addr), entryLinks.Chain heap p as none →
    as.length ≤ fuel → lastEntryLoop heap fuel as.head? last = some (as.getLast?.or last)
  | [], fuel, _, _, _, _ => by cases fuel <;> rfl
  | a :: as, 0, _, _, _, hlen => absurd hlen (Nat.not_succ_le_zero _)
  | a :: as, fuel + 1, p, last, ⟨⟨e, he, _, hnext⟩, hrest⟩, hlen => by
    have ih := lastEntryLoop_chain as fuel (some a) (some a) hrest (Nat.le_of_succ_le_succ hlen)
    rw [Option.or_none] at hnext
    rw [List.head?_cons, lastEntryLoop, he, Option.bind_some, show e.nextEntry = as.head? from hnext, ih,
      List.getLast?_cons]
    cases as.getLast? <;> rfl

theorem entryByIdLoop_chain (id : Nat) : ∀ (as : List Addr) (fuel : Nat) (p : Option Addr),
    entryLinks.Chain heap p as none → as.length ≤ fuel →
    entryByIdLoop heap id fuel as.head? = some (as.find? fun a => idAt heap a == some id)
  | [], fuel, _, _, _ => by cases fuel <;> rfl
  | a :: as, 0, _, _, hlen => absurd hlen (Nat.not_succ_le_zero _)
  | a :: as, fuel + 1, p, ⟨⟨e, he, _, hnext⟩, hrest⟩, hlen => by
    have ih := entryByIdLoop_chain id as fuel (some a) hrest (Nat.le_of_succ_le_succ hlen)
    have hid : idAt heap a = some e.id := by rw [idAt, he]; rfl
    rw [Option.or_none] at hnext
    have hhead : e.nextEntry = as.head? := hnext
    rw [List.head?_cons, entryByIdLoop, he, Option.bind_some, hhead, ih, List.find?_cons, hid]
    by_cases heq : id = e.id
    · simp [heq]
    · rw [if_neg heq, beq_false_of_ne (fun h => heq (Option.some.inj h).symm)]

theorem BookInv.linked {s : Book} (h : BookInv s) : Linked s.pb s.heap s.live := ⟨h.chain, h.nodup, h.first⟩

theorem linked_create : Linked phonebookCreate ∅ [] := ⟨trivial, List.nodup_nil, rfl⟩

theorem Linked.mem {pb : Phonebook} (h : Linked pb heap as) (ha : a ∈ as) : a ∈ heap := by
  obtain ⟨e, he⟩ := h.chain.load ha
  exact Heap.mem_of_load he

theorem Linked.nodup_concat {pb : Phonebook} (h : Linked pb heap as) (ha : a ∉ heap) : (as ++ [a]).Nodup := by
  rw [← List.concat_eq_append]
  exact h.nodup.concat fun hmem => ha (h.mem hmem)

theorem Linked.length_le {pb : Phonebook} (h : Linked pb heap as) : as.length ≤ heap.size := by
  apply Heap.length_le_size h.nodup
  intro a ha
  obtain ⟨e, he⟩ := h.chain.load ha
  rw [he]; rfl

theorem BookInv.ordered {s : Book} (h : BookInv s) : Ordered s where
  walk := by
    rw [h.first]
    exact Links.walk_chain s.live _ none h.chain h.linked.length_le
  head a e ha he := by
    have hchain := h.chain
    rw [h.first] at ha
    cases hlive : s.live with
    | nil => rw [hlive] at ha; cases ha
    | cons b as =>
      rw [hlive] at ha hchain
      obtain rfl := Option.some.inj ha
      obtain ⟨⟨n, hn, hprev, -⟩, -⟩ := hchain
      obtain rfl := Option.some.inj (he.symm.trans hn)
      exact hprev
  neighbours i a b ha hb := h.chain.neighbours ha hb
  size := h.size
  idsDistinct := h.idsDistinct
  idsBelow := h.idsBelow
  byId id := by
    refine ⟨s.live.find? fun a => idAt s.heap a == some id, ?_, fun a ha => ?_, ?_⟩
    · rw [getEntryById, h.first]
      exact entryByIdLoop_chain id s.live _ none h.chain h.linked.length_le
    · have hfound := List.find?_some ha
      exact ⟨List.mem_of_find?_eq_some ha, beq_iff_eq.1 hfound⟩
    · simp [List.find?_isSome]

/-! ## `phonebook_add_entry` -/

theorem data_fillEntry (raw : PhonebookEntry) (firstName lastName phoneNumber : CString) :
    (fillEntry raw firstName lastName phoneNumber).data =
      ⟨raw.id, stored firstName, stored lastName, stored phoneNumber⟩ := by
  have hfield : ∀ s, (storeField arrSize s).1 = stored s := by
    intro s
    unfold storeField stored
    split
    · rfl
    · rfl
  simp only [fillEntry, PhonebookEntry.data, hfield]

theorem addEntry_spec {pb : Phonebook} {live : List Addr} (h : Linked pb heap live) (ha : a ∉ heap)
    (raw : PhonebookEntry) (firstName lastName phoneNumber : CString) :
    ∃ g, phonebookAddEntry pb heap a raw firstName lastName phoneNumber =
        some (⟨(live ++ [a]).head?, (pb.size + 1) % sizeValues, (pb.latestId + 1) % sizeValues⟩, g) ∧
      entryLinks.Chain g none (live ++ [a]) none ∧ (∀ b, b ≠ a → dataAt g b = dataAt heap b) ∧
      dataAt g a = some ⟨pb.latestId, stored firstName, stored lastName, stored phoneNumber⟩ := by
  have hchain := h.chain
  have hnd := h.nodup
  have hfirst := h.first
  have hfresh : ∀ b ∈ live, b ≠ a := by
    rintro b hb rfl
    exact ha (h.mem hb)
  obtain ⟨g₁, hg₁⟩ := Heap.exists_malloc ha (fillEntry raw firstName lastName phoneNumber)
  have hload₁ := Heap.load_malloc hg₁
  have hchain₁ : entryLinks.Chain g₁ none live none :=
    hchain.congr fun b hb => Heap.load_malloc_ne hg₁ (hfresh b hb)
  have hdata₁ := data_fillEntry raw firstName lastName phoneNumber
  have hlen : live.length ≤ g₁.size := Heap.length_le_size hnd fun b hb => by
    obtain ⟨e, he⟩ := hchain₁.load hb
    rw [he]; rfl
  have hlast : phonebookLastEntry pb g₁ = some live.getLast? := by
    rw [phonebookLastEntry, hfirst, lastEntryLoop_chain live _ none none hchain₁ hlen, Option.or_none]
  rcases List.eq_nil_or_concat' live with rfl | ⟨as, last, rfl⟩
  · obtain ⟨g₂, hg₂, hload₂⟩ := Heap.exists_modify hload₁ fun e => { e with prevEntry := none }
    obtain ⟨g₃, hg₃, hload₃⟩ := Heap.exists_modify hload₂ fun e => { e with id := pb.latestId }
    refine ⟨g₃, ?_, ⟨⟨_, hload₃, rfl, rfl⟩, trivial⟩, fun b hb => ?_, ?_⟩
    · simp [phonebookAddEntry, hg₁, hlast, hg₂, hg₃]
    · rw [dataAt, Heap.load_modify_ne hg₃ hb, Heap.load_modify_ne hg₂ hb, Heap.load_malloc_ne hg₁ hb, dataAt]
    · rw [dataAt, hload₃]
      exact congrArg (fun d : EntryData => some { d with id := pb.latestId }) hdata₁
  · have hne : a ≠ last := (hfresh last (by simp)).symm
    have hnot : last ∉ as := fun h => (List.nodup_append.1 hnd).2.2 last h last (by simp) rfl
    obtain ⟨e, he⟩ := hchain₁.load (a := last) (by simp)
    obtain ⟨g₂, hg₂, -⟩ := Heap.exists_modify he fun e => { e with nextEntry := some a }
    have hload₂ := (Heap.load_modify_ne hg₂ hne).trans hload₁
    obtain ⟨g₃, hg₃, hload₃⟩ := Heap.exists_modify hload₂ fun e => { e with prevEntry := some last }
    obtain ⟨g₄, hg₄, hload₄⟩ := Heap.exists_modify hload₃ fun e => { e with id := pb.latestId }
    have hold : ∀ b ∈ as ++ [last], g₄.load b = g₂.load b := fun b hb => by
      rw [Heap.load_modify_ne hg₄ (hfresh b hb), Heap.load_modify_ne hg₃ (hfresh b hb)]
    refine ⟨g₄, ?_, ?_, fun b hb => ?_, ?_⟩
    · simp [phonebookAddEntry, hg₁, hlast, hg₂, hg₃, hg₄, hfirst, List.head?_append]
    · rw [Links.chain_append, List.getLast?_concat]
      have hchain₂ : entryLinks.Chain g₂ none (as ++ [last]) (some a) := hchain₁.setNext hnot hg₂
      exact ⟨hchain₂.congr hold, ⟨_, hload₄, rfl, rfl⟩, trivial⟩
    · have hold : dataAt g₄ b = dataAt g₂ b := by
        rw [dataAt, Heap.load_modify_ne hg₄ hb, Heap.load_modify_ne hg₃ hb, dataAt]
      rw [hold, dataAt, Heap.map_load_modify hg₂ (fun _ => rfl), Heap.load_malloc_ne hg₁ hb, dataAt]
    · rw [dataAt, hload₄]
      exact congrArg (fun d : EntryData => some { d with id := pb.latestId }) hdata₁

/-! ## `phonebook_delete_entry` -/

/-- An entry at an end of the book takes the whole book with it. -/
theorem deleteEntry_outer (pb : Phonebook) {xs ys : List Addr} (hchain : entryLinks.Chain heap none (xs ++ a :: ys) none)
    (hend : xs = [] ∨ ys = []) : ∃ g, phonebookDeleteEntry pb heap a =
      some ({ pb with firstEntry := none, size := (pb.size + sizeValues - 1) % sizeValues }, g) ∧
      heap.free a = some g := by
  obtain ⟨e, he, hprev, hnext⟩ := hchain.middle
  obtain ⟨g, hg⟩ := Heap.exists_free (Heap.mem_of_load he)
  have hnull : e.prevEntry = none ∨ e.nextEntry = none := by
    rcases hend with rfl | rfl
    · exact Or.inl hprev
    · exact Or.inr hnext
  refine ⟨g, ?_, hg⟩
  simp only [phonebookDeleteEntry, he, Option.bind_eq_bind, Option.bind_some, if_pos hnull, hg]

theorem deleteEntry_inner (pb : Phonebook) {xs ys : List Addr} {l r : Addr}
    (hchain : entryLinks.Chain heap none (xs ++ [l] ++ a :: r :: ys) none) (hnd : (xs ++ [l] ++ a :: r :: ys).Nodup) :
    ∃ g, phonebookDeleteEntry pb heap a = some ({ pb with size := (pb.size + sizeValues - 1) % sizeValues }, g) ∧
      entryLinks.Chain g none (xs ++ [l] ++ r :: ys) none ∧ ∀ b, b ≠ a → idAt g b = idAt heap b := by
  obtain ⟨e, he, hprev, hnext⟩ := hchain.middle
  rw [List.getLast?_concat, Option.some_or] at hprev
  obtain ⟨f, hf⟩ := hchain.load (a := r) (by simp)
  obtain ⟨d, hd⟩ := hchain.load (a := l) (by simp)
  obtain ⟨-, hndr, hdisj⟩ := List.nodup_append.1 hnd
  have hlr : l ≠ r := hdisj l (by simp) r (by simp)
  have hla : l ≠ a := hdisj l (by simp) a (by simp)
  have har : a ≠ r := fun h => (List.nodup_cons.1 hndr).1 (by simp [h])
  obtain ⟨g₁, hg₁, -⟩ := Heap.exists_modify hf fun e => { e with prevEntry := some l }
  have hd₁ := (Heap.load_modify_ne hg₁ hlr).trans hd
  obtain ⟨g₂, hg₂, -⟩ := Heap.exists_modify hd₁ fun e => { e with nextEntry := some r }
  have hload : g₂.load a = some e := by
    rw [Heap.load_modify_ne hg₂ hla.symm, Heap.load_modify_ne hg₁ har, he]
  obtain ⟨g₃, hg₃⟩ := Heap.exists_free (Heap.mem_of_load hload)
  have hchain₂ : entryLinks.Chain g₂ none (xs ++ [l] ++ r :: ys) none := hchain.unlink hnd hg₁ hg₂
  refine ⟨g₃, ?_, ?_, fun b hb => ?_⟩
  · have hp : e.prevEntry = some l := hprev
    have hn : e.nextEntry = some r := hnext
    simp [phonebookDeleteEntry, he, hp, hn, Heap.assign, hg₁, hg₂, hg₃]
  · apply hchain₂.congr
    intro b hb
    have hnot : a ∉ xs ++ [l] ++ r :: ys := (List.nodup_cons.1 (List.nodup_middle.1 hnd)).1
    exact Heap.load_free_ne hg₃ fun hba => hnot (hba ▸ hb)
  · rw [idAt, idAt, Heap.load_free_ne hg₃ hb, Heap.map_load_modify hg₂ (fun _ => rfl),
      Heap.map_load_modify hg₁ (fun _ => rfl)]

/-! ## Runs -/

/-- The operations that keep the book in order: an addition that does not wrap `latest_id`, a deletion of the only entry
or of one between two others. -/
def keepsOrder (s : Book) : Op → Prop
  | .add .. => s.pb.latestId + 1 < sizeValues
  | .delete pentry => s.live = [pentry] ∨ (s.live.head? ≠ some pentry ∧ s.live.getLast? ≠ some pentry)

instance (s : Book) : ∀ op, Decidable (keepsOrder s op)
  | .add .. => inferInstanceAs (Decidable (s.pb.latestId + 1 < sizeValues))
  | .delete pentry =>
    inferInstanceAs (Decidable (s.live = [pentry] ∨ (s.live.head? ≠ some pentry ∧ s.live.getLast? ≠ some pentry)))

theorem step_add {s t : Book} (h : Linked s.pb s.heap s.live) {raw : PhonebookEntry}
    {firstName lastName phoneNumber : CString} (hs : step s (.add a raw firstName lastName phoneNumber) = some t) :
    a ∉ s.live ∧ t.live = s.live ++ [a] ∧ Linked t.pb t.heap (s.live ++ [a]) ∧
      t.pb = ⟨(s.live ++ [a]).head?, (s.pb.size + 1) % sizeValues, (s.pb.latestId + 1) % sizeValues⟩ ∧
      (∀ b ∈ s.live, dataAt t.heap b = dataAt s.heap b) ∧
      dataAt t.heap a = some ⟨s.pb.latestId, stored firstName, stored lastName, stored phoneNumber⟩ := by
  obtain ⟨⟨pb, g⟩, hadd, rfl⟩ := Option.map_eq_some_iff.1 hs
  have ha : a ∉ s.heap := by
    obtain ⟨g₁, hg₁, -⟩ := Option.bind_eq_some_iff.1 hadd
    exact Heap.not_mem_of_malloc hg₁
  have hlive : a ∉ s.live := fun hmem => ha (h.mem hmem)
  obtain ⟨g', hspec, hchain, hold, hnew⟩ := addEntry_spec h ha raw firstName lastName phoneNumber
  rw [hspec] at hadd
  cases hadd
  refine ⟨hlive, rfl, ⟨hchain, h.nodup_concat ha, rfl⟩, rfl, fun b hb => hold b ?_, hnew⟩
  rintro rfl
  exact hlive hb

theorem BookInv.add {s t : Book} (h : BookInv s) {raw : PhonebookEntry} {firstName lastName phoneNumber : CString}
    (hid : s.pb.latestId + 1 < sizeValues) (hs : step s (.add a raw firstName lastName phoneNumber) = some t) :
    BookInv t := by
  obtain ⟨ha, hlive, hlinked, hpb, hold, hnew⟩ := step_add h.linked hs
  have hsize := h.size
  have hfew := h.few
  have hidOld : ∀ b ∈ s.live, idAt t.heap b = idAt s.heap b := fun b hb => by rw [idAt_eq, idAt_eq, hold b hb]
  have hidNew : idAt t.heap a = some s.pb.latestId := by
    rw [idAt_eq, hnew]
    rfl
  have hids : t.live.map (idAt t.heap) = s.live.map (idAt s.heap) ++ [some s.pb.latestId] := by
    rw [hlive, List.map_append, List.map_congr_left hidOld, List.map_singleton, hidNew]
  have hlatest : t.pb.latestId = s.pb.latestId + 1 := by
    rw [hpb]
    exact Nat.mod_eq_of_lt hid
  have hlen : t.live.length = s.live.length + 1 := by rw [hlive, List.length_append]; rfl
  constructor
  case chain => rw [hlive]; exact hlinked.chain
  case nodup => rw [hlive]; exact hlinked.nodup
  case first => rw [hlive]; exact hlinked.first
  case size =>
    rw [hpb, hlen]
    exact (Nat.mod_eq_of_lt (by omega)).trans (by rw [hsize])
  case idsDistinct =>
    rw [hids, ← List.concat_eq_append]
    refine h.idsDistinct.concat fun hmem => ?_
    obtain ⟨b, hb, hbid⟩ := List.mem_map.1 hmem
    obtain ⟨i, hi, hlt⟩ := h.idsBelow b hb
    rw [hbid] at hi
    exact absurd (Option.some.inj hi) (Nat.ne_of_gt hlt)
  case idsBelow =>
    intro b hb
    rw [hlatest]
    rw [hlive] at hb
    rcases List.mem_append.1 hb with hb | hb
    · obtain ⟨i, hi, hlt⟩ := h.idsBelow b hb
      exact ⟨i, (hidOld b hb).trans hi, Nat.lt_succ_of_lt hlt⟩
    · obtain rfl := List.mem_singleton.1 hb
      exact ⟨_, hidNew, Nat.lt_succ_self _⟩
  case few => omega
  case latestId => omega

theorem not_ordered_of_add {s t : Book} (h : BookInv s) {raw : PhonebookEntry} {firstName lastName phoneNumber : CString}
    (hid : ¬ s.pb.latestId + 1 < sizeValues) (hs : step s (.add a raw firstName lastName phoneNumber) = some t) :
    ¬ Ordered t := by
  obtain ⟨-, hlive, -, hpb, -⟩ := step_add h.linked hs
  -- the id source wraps to 0, below which there is no id
  have hzero : t.pb.latestId = 0 := by
    have hlt := h.latestId
    have heq : s.pb.latestId + 1 = sizeValues := by omega
    rw [hpb]
    simp only
    rw [heq, Nat.mod_self]
  intro hord
  obtain ⟨i, -, hi⟩ := hord.idsBelow a (by rw [hlive]; exact List.mem_append_right _ (List.mem_singleton_self a))
  rw [hzero] at hi
  exact Nat.not_lt_zero i hi

theorem step_delete {s t : Book} (h : BookInv s) (hs : step s (.delete a) = some t) :
    ∃ xs ys, s.live = xs ++ a :: ys ∧ t.live = xs ++ ys ∧ phonebookDeleteEntry s.pb s.heap a = some (t.pb, t.heap) := by
  rw [step] at hs
  split at hs
  case isFalse => cases hs
  case isTrue hmem =>
    obtain ⟨⟨pb, g⟩, hdel, rfl⟩ := Option.map_eq_some_iff.1 hs
    obtain ⟨xs, ys, hlive⟩ := List.append_of_mem hmem
    have hnd := h.nodup
    rw [hlive, List.nodup_middle, List.nodup_cons] at hnd
    have hnot : a ∉ xs := fun hx => hnd.1 (List.mem_append_left ys hx)
    refine ⟨xs, ys, hlive, ?_, hdel⟩
    rw [hlive]
    simp only
    rw [List.erase_append_right _ hnot, List.erase_cons_head]

theorem keepsOrder_delete_iff {s : Book} {xs ys : List Addr} (hnd : s.live.Nodup) (hlive : s.live = xs ++ a :: ys) :
    keepsOrder s (.delete a) ↔ (xs = [] ∧ ys = []) ∨ (xs ≠ [] ∧ ys ≠ []) := by
  rw [hlive] at hnd
  obtain ⟨-, hndr, hdisj⟩ := List.nodup_append.1 hnd
  have hhead : (xs ++ a :: ys).head? = some a ↔ xs = [] := by
    cases xs with
    | nil => simp
    | cons b xs => simp [hdisj b List.mem_cons_self a List.mem_cons_self]
  have hlast : (xs ++ a :: ys).getLast? = some a ↔ ys = [] := by
    rcases List.eq_nil_or_concat' ys with rfl | ⟨ys, b, rfl⟩
    · simp
    · have hne : b ≠ a := fun h => (List.nodup_cons.1 hndr).1 (by simp [h])
      rw [← List.cons_append, ← List.append_assoc, List.getLast?_concat]
      simp [hne]
  unfold keepsOrder
  simp only
  rw [hlive, ne_eq, ne_eq, hhead, hlast, List.append_eq_singleton_iff]
  simp

theorem BookInv.removed {s t : Book} (h : BookInv s) {xs ys : List Addr} (hlive : s.live = xs ++ a :: ys)
    (hlive' : t.live = xs ++ ys) (hchain : entryLinks.Chain t.heap none (xs ++ ys) none)
    (hids : ∀ b ∈ xs ++ ys, idAt t.heap b = idAt s.heap b) (hpb : t.pb =
      { firstEntry := (xs ++ ys).head?, size := (s.pb.size + sizeValues - 1) % sizeValues, latestId := s.pb.latestId }) :
    BookInv t := by
  have hsub : (xs ++ ys).Sublist s.live := by
    rw [hlive]
    exact (List.sublist_cons_self a ys).append_left xs
  have hlen : s.live.length = (xs ++ ys).length + 1 := by
    rw [hlive, List.length_append, List.length_cons, List.length_append]
    omega
  have hsize := h.size
  have hfew := h.few
  have hlatest := h.latestId
  constructor
  case chain => rw [hlive']; exact hchain
  case nodup =>
    rw [hlive']
    exact hsub.nodup h.nodup
  case first => rw [hpb, hlive']
  case size =>
    rw [hpb, hlive', hsize, hlen]
    simp only
    rw [show (xs ++ ys).length + 1 + sizeValues - 1 = (xs ++ ys).length + sizeValues by omega, Nat.add_mod_right]
    exact Nat.mod_eq_of_lt (by omega)
  case idsDistinct =>
    rw [hlive', List.map_congr_left hids]
    exact (hsub.map _).nodup h.idsDistinct
  case idsBelow =>
    intro b hb
    rw [hlive'] at hb
    rw [hids b hb, hpb]
    exact h.idsBelow b (hsub.subset hb)
  case few =>
    rw [hlive', hpb]
    simp only
    omega
  case latestId => rw [hpb]; exact hlatest

theorem BookInv.delete {s t : Book} (h : BookInv s) (hok : keepsOrder s (.delete a)) (hs : step s (.delete a) = some t) :
    BookInv t := by
  obtain ⟨xs, ys, hlive, hlive', hdel⟩ := step_delete h hs
  have hchain := h.chain
  have hnd := h.nodup
  rw [keepsOrder_delete_iff hnd hlive] at hok
  rw [hlive] at hchain hnd
  rcases hok with ⟨rfl, rfl⟩ | ⟨hxs, hys⟩
  · -- the only entry
    obtain ⟨g, hspec, -⟩ := deleteEntry_outer s.pb hchain (Or.inl rfl)
    rw [hspec] at hdel
    obtain ⟨hpb, -⟩ := Prod.mk.inj (Option.some.inj hdel)
    exact h.removed hlive hlive' trivial (fun b hb => (nomatch hb)) hpb.symm
  · -- an entry between `l` and `r`
    obtain ⟨xs, l, rfl⟩ := (List.eq_nil_or_concat' xs).resolve_left hxs
    obtain ⟨r, ys, rfl⟩ := List.exists_cons_of_ne_nil hys
    obtain ⟨g, hspec, hchain', hids⟩ := deleteEntry_inner s.pb hchain hnd
    rw [hspec] at hdel
    obtain ⟨hpb, hheap⟩ := Prod.mk.inj (Option.some.inj hdel)
    rw [hheap] at hchain' hids
    have hfirst : s.pb.firstEntry = (xs ++ [l] ++ r :: ys).head? := by
      rw [h.first, hlive]
      simp [List.head?_append]
    have hnot : a ∉ xs ++ [l] ++ r :: ys := (List.nodup_cons.1 (List.nodup_middle.1 hnd)).1
    apply h.removed hlive hlive' hchain' _ (by rw [← hpb, hfirst])
    intro b hb
    exact hids b fun hba => hnot (hba ▸ hb)

theorem not_ordered_of_delete {s t : Book} (h : BookInv s) (hok : ¬ keepsOrder s (.delete a))
    (hs : step s (.delete a) = some t) : ¬ Ordered t := by
  obtain ⟨xs, ys, hlive, hlive', hdel⟩ := step_delete h hs
  have hchain := h.chain
  rw [keepsOrder_delete_iff h.nodup hlive, not_or, not_and_or, not_and_or, not_not, not_not] at hok
  rw [hlive] at hchain
  obtain ⟨g, hspec, -⟩ := deleteEntry_outer s.pb hchain hok.2
  rw [hspec] at hdel
  obtain ⟨hpb, -⟩ := Prod.mk.inj (Option.some.inj hdel)
  intro hord
  -- nothing is reached from a NULL `first_entry`
  have hwalk := hord.walk
  rw [← hpb] at hwalk
  have hnil : [] = t.live := by
    cases hn : t.heap.size <;> rw [hn] at hwalk <;> exact Option.some.inj hwalk
  rw [hlive', eq_comm, List.append_eq_nil_iff] at hnil
  exact hok.1.elim (fun hx => hx hnil.1) fun hy => hy hnil.2

theorem bookInv_create : BookInv create where
  chain := trivial
  nodup := List.nodup_nil
  first := rfl
  size := rfl
  idsDistinct := List.nodup_nil
  idsBelow _ h := nomatch h
  few := Nat.le_refl 0
  latestId := by decide

/-- In a book in order a deletion touches no freed entry. -/
theorem step_delete_defined {s : Book} (h : BookInv s) (ha : a ∈ s.live) : ∃ t, step s (.delete a) = some t := by
  obtain ⟨xs, ys, hlive⟩ := List.append_of_mem ha
  have hchain := h.chain
  have hnd := h.nodup
  rw [hlive] at hchain hnd
  have hdel : ∃ r, phonebookDeleteEntry s.pb s.heap a = some r := by
    by_cases hend : xs = [] ∨ ys = []
    · obtain ⟨g, hspec, -⟩ := deleteEntry_outer s.pb hchain hend
      exact ⟨_, hspec⟩
    · rw [not_or] at hend
      obtain ⟨xs, l, rfl⟩ := (List.eq_nil_or_concat' xs).resolve_left hend.1
      obtain ⟨r, ys, rfl⟩ := List.exists_cons_of_ne_nil hend.2
      obtain ⟨g, hspec, -⟩ := deleteEntry_inner s.pb hchain hnd
      exact ⟨_, hspec⟩
  obtain ⟨r, hr⟩ := hdel
  rw [step, if_pos ha, hr]
  exact ⟨_, rfl⟩

/-- **The phonebook stays an ordered collection exactly along the runs that delete no entry at one end of a longer
book** and add fewer than 2^64 entries: the first test of `phonebook_delete_entry` should have been a conjunction. -/
theorem ordered_iff {es : List Op} {s : Book} (hrun : Run.run step create es = some s) :
    Run.Always step Ordered create es ↔ Run.Steps step keepsOrder create es := by
  refine Run.always_iff_steps BookInv (fun s op t h hok hs => ?_) (fun _ h => h.ordered) (fun s op t h hok hs => ?_)
    bookInv_create hrun
  · cases op with
    | add a raw firstName lastName phoneNumber => exact h.add hok hs
    | delete a => exact h.delete hok hs
  · cases op with
    | add a raw firstName lastName phoneNumber => exact not_ordered_of_add h hok hs
    | delete a => exact not_ordered_of_delete h hok hs

def addAt (pentry : Addr) : Op := .add pentry default (str ['a']) (str ['b']) (str ['7'])

/-- The middle one of three entries deleted. -/
theorem ordered_of_middle_deleted : Run.Always step Ordered create [addAt 1, addAt 2, addAt 3, .delete 2] :=
  (ordered_iff (s := (Run.run step create [addAt 1, addAt 2, addAt 3, .delete 2]).get rfl) rfl).2 (by decide)

/-- The first one of two entries deleted: the second one is lost. -/
theorem first_deleted_empties_book : ∃ s, Run.run step create [addAt 1, addAt 2, .delete 1] = some s ∧
    s.live = [2] ∧ s.pb.firstEntry = none ∧ ¬ Ordered s :=
  ⟨_, rfl, rfl, rfl, fun h => absurd h.walk (by decide)⟩

end Pb
end Eltex
