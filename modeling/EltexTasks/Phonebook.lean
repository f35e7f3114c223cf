import EltexTasks.Run
import EltexTasks.CString
import EltexTasks.Chain
/-!
# Phonebook — the doubly linked phonebook

phonebook/source/phonebook.c: `phonebook_add_entry`, `phonebook_delete_entry` and the walks over the entries.  Each
function takes the book and the heap of entries and returns them as it leaves them.
-/
namespace Eltex
namespace Pb

/-- `ARR_SIZE` -/
def arrSize : Nat := 20

/-- The number of values of a `size_t`. -/
def sizeValues : Nat := 2 ^ 64

structure PhonebookEntry where
  firstNameAllocated : Nat
  lastNameAllocated : Nat
  numberAllocated : Nat
  firstNameCount : Nat
  lastNameCount : Nat
  numberCount : Nat
  id : Nat
  firstName : CString
  lastName : CString
  phoneNumber : CString
  prevEntry : Option Addr
  nextEntry : Option Addr
deriving DecidableEq, Repr, Inhabited

structure Phonebook where
  firstEntry : Option Addr
  size : Nat
  latestId : Nat
deriving DecidableEq, Repr

def phonebookCreate : Phonebook := { firstEntry := none, size := 0, latestId := 0 }

/-- What is kept of a name or number in an array of `allocated` bytes, and its count. -/
def storeField (allocated : Nat) (s : CString) : CString × Nat :=
  if s.length < allocated then (s, s.length) else ([], 0)

/-- The fields `phonebook_add_entry` fills in before it links the entry; `raw` is the memory `malloc` returned. -/
def fillEntry (raw : PhonebookEntry) (firstName lastName phoneNumber : CString) : PhonebookEntry :=
  let (first, firstCount) := storeField arrSize firstName
  let (last, lastCount) := storeField arrSize lastName
  let (number, numberCount) := storeField arrSize phoneNumber
  { raw with
    numberAllocated := arrSize, firstNameAllocated := arrSize, lastNameAllocated := arrSize
    nextEntry := none
    firstName := first, firstNameCount := firstCount
    lastName := last, lastNameCount := lastCount
    phoneNumber := number, numberCount := numberCount }

/-- The loop of `phonebook_last_entry`; `none` where it reads freed memory or never ends. -/
def lastEntryLoop (heap : Heap PhonebookEntry) : Nat → Option Addr → Option Addr → Option (Option Addr)
  | _, none, lastEntry => some lastEntry
  | 0, some _, _ => none
  | fuel + 1, some next, _ => (heap.load next).bind fun e => lastEntryLoop heap fuel e.nextEntry (some next)

def phonebookLastEntry (pb : Phonebook) (heap : Heap PhonebookEntry) : Option (Option Addr) :=
  lastEntryLoop heap heap.size pb.firstEntry none

/-- `phonebook_add_entry`, where `malloc` returns `pentry` with the contents `raw`. -/
def phonebookAddEntry (pb : Phonebook) (heap : Heap PhonebookEntry) (pentry : Addr) (raw : PhonebookEntry)
    (firstName lastName phoneNumber : CString) : Option (Phonebook × Heap PhonebookEntry) := do
  let heap ← heap.malloc pentry (fillEntry raw firstName lastName phoneNumber)
  let lastEntry ← phonebookLastEntry pb heap
  let (firstEntry, heap) ← match lastEntry with
    | none => do
      let heap ← heap.modify pentry fun e => { e with prevEntry := none }
      some (some pentry, heap)
    | some lastEntry => do
      let heap ← heap.modify lastEntry fun e => { e with nextEntry := some pentry }
      let heap ← heap.modify pentry fun e => { e with prevEntry := some lastEntry }
      some (pb.firstEntry, heap)
  let heap ← heap.modify pentry fun e => { e with id := pb.latestId }
  some ({ firstEntry := firstEntry
          size := (pb.size + 1) % sizeValues
          latestId := (pb.latestId + 1) % sizeValues }, heap)

/-- `phonebook_delete_entry`.  The second and third branch are never taken: the first one has both their conditions. -/
def phonebookDeleteEntry (pb : Phonebook) (heap : Heap PhonebookEntry) (pentry : Addr) :
    Option (Phonebook × Heap PhonebookEntry) := do
  let entry ← heap.load pentry
  let prev := entry.prevEntry
  let next := entry.nextEntry
  let size := (pb.size + sizeValues - 1) % sizeValues
  if prev = none ∨ next = none then
    let heap ← heap.free pentry
    some ({ pb with firstEntry := none, size := size }, heap)
  else if prev = none then
    let heap ← heap.assign next fun e => { e with prevEntry := none }
    let heap ← heap.free pentry
    some ({ pb with firstEntry := next, size := size }, heap)
  else if next = none then
    let heap ← heap.assign prev fun e => { e with nextEntry := next }
    let heap ← heap.free pentry
    some ({ pb with size := size }, heap)
  else
    let heap ← heap.assign next fun e => { e with prevEntry := prev }
    let heap ← heap.assign prev fun e => { e with nextEntry := next }
    let heap ← heap.free pentry
    some ({ pb with size := size }, heap)

/-- A block `phonebook_delete` frees. -/
inductive Block where
  | entry (pentry : Addr)
  | book
deriving DecidableEq, Repr

/-- The loop of `phonebook_delete`, with the entries it has freed in their order; `none` where it uses freed memory or
never ends. -/
def phonebookDeleteLoop : Nat → Phonebook → Heap PhonebookEntry → Option Addr → Option (Heap PhonebookEntry × List Addr)
  | _, _, heap, none => some (heap, [])
  | 0, _, _, some _ => none
  | fuel + 1, pb, heap, some pentry => do
    let next := (← heap.load pentry).nextEntry
    let (pb, heap) ← phonebookDeleteEntry pb heap pentry
    let (heap, freed) ← phonebookDeleteLoop fuel pb heap next
    some (heap, pentry :: freed)

/-- `phonebook_delete`: the heap of entries it leaves and the blocks it frees. -/
def phonebookDelete (pb : Phonebook) (heap : Heap PhonebookEntry) : Option (Heap PhonebookEntry × List Block) :=
  (phonebookDeleteLoop heap.size pb heap pb.firstEntry).map fun (heap, freed) => (heap, freed.map .entry ++ [.book])

/-- `return_array[i] = v`; `none` outside the array. -/
def writeCell (returnArray : List Nat) (i v : Nat) : Option (List Nat) :=
  if i < returnArray.length then some (returnArray.set i v) else none

/-- The loop of `phonebook_search`. -/
def searchLoop (heap : Heap PhonebookEntry) (firstName lastName : CString) :
    Nat → Option Addr → List Nat → Nat → Option (List Nat)
  | _, none, returnArray, _ => some returnArray
  | 0, some _, _, _ => none
  | fuel + 1, some pentry, returnArray, foundCount => (heap.load pentry).bind fun e =>
    if e.firstName = firstName ∧ e.lastName = lastName then
      (writeCell returnArray foundCount e.id).bind fun returnArray =>
        if returnArray.length ≤ foundCount + 1 then some returnArray
        else searchLoop heap firstName lastName fuel e.nextEntry returnArray (foundCount + 1)
    else searchLoop heap firstName lastName fuel e.nextEntry returnArray foundCount

/-- `phonebook_search`: the array as it leaves it. -/
def phonebookSearch (pb : Phonebook) (heap : Heap PhonebookEntry) (firstName lastName : CString)
    (returnArray : List Nat) : Option (List Nat) :=
  if returnArray.length = 0 then some returnArray
  else searchLoop heap firstName lastName heap.size pb.firstEntry returnArray 0

/-- The loop of `get_entry_by_id`. -/
def entryByIdLoop (heap : Heap PhonebookEntry) (id : Nat) : Nat → Option Addr → Option (Option Addr)
  | _, none => some none
  | 0, some _ => none
  | fuel + 1, some pentry => (heap.load pentry).bind fun e =>
    if id = e.id then some (some pentry) else entryByIdLoop heap id fuel e.nextEntry

def getEntryById (pb : Phonebook) (heap : Heap PhonebookEntry) (id : Nat) : Option (Option Addr) :=
  entryByIdLoop heap id heap.size pb.firstEntry

/-! ## Runs -/

/-- A book in use; `live` lists the entries added and not yet deleted, in the order of addition. -/
structure Book where
  pb : Phonebook
  heap : Heap PhonebookEntry
  live : List Addr

def create : Book := { pb := phonebookCreate, heap := ∅, live := [] }

inductive Op where
  | add (pentry : Addr) (raw : PhonebookEntry) (firstName lastName phoneNumber : CString)
  | delete (pentry : Addr)

/-- One operation; a delete is given an entry of the book. -/
def step (s : Book) : Op → Option Book
  | .add pentry raw firstName lastName phoneNumber =>
    (phonebookAddEntry s.pb s.heap pentry raw firstName lastName phoneNumber).map fun (pb, heap) =>
      { pb := pb, heap := heap, live := s.live ++ [pentry] }
  | .delete pentry =>
    if pentry ∈ s.live then
      (phonebookDeleteEntry s.pb s.heap pentry).map fun (pb, heap) =>
        { pb := pb, heap := heap, live := s.live.erase pentry }
    else none

end Pb
end Eltex
