import EltexTasks.CString
import EltexTasks.Heap
import EltexTasks.PointerBytes
import EltexTasks.Run
import Mathlib.Data.List.Dedup
/-!
# ErrStr — a buffer for each thread

threads_task/source/reentrable.c: `err_str` called by any number of threads, every call of the library a step; `malloc`
and the calls of pthread succeed.  Each thread writes to a buffer of its own, so the text it has is that of its own last
call (`err_str_reentrant`).  The destructor takes the text for a key and asks for the value it has just lost: no buffer
is ever freed (`buffers_leak`).
-/
namespace Eltex
namespace ErrStr

open Run (run)

/-- The text `strcpy` writes for `errnum`. -/
def errText (errnum : Int) : CString :=
  if errnum = 0 then str ['o', 'u', 't', ' ', 'o', 'f', ' ', 'm', 'e', 'm', 'o', 'r', 'y']
  else if errnum = 1 then
    str ['c', 'o', 'u', 'l', 'd', ' ', 'n', 'o', 't', ' ', 'o', 'p', 'e', 'n', ' ', 'f', 'i', 'l', 'e']
  else
    str ['n', 'o', 't', ' ', 'a', ' ', 'v', 'a', 'l', 'i', 'd', ' ', 'e', 'r', 'r', 'o', 'r', ' ', 'n', 'u', 'm', 'b',
      'e', 'r']

/-- Where a thread is: outside of `err_str`, with what it returned last; before `pthread_once`; before
`pthread_getspecific`; with a NULL `ptr`; with a new buffer that is not its value yet; before `strcpy`. -/
inductive Pc where
  | outside (last : Option (Addr × Int))
  | called (errnum : Int)
  | keyed (errnum : Int)
  | null (errnum : Int)
  | allocated (errnum : Int) (ptr : Addr)
  | found (errnum : Int) (ptr : Addr)
  | exited
deriving DecidableEq, Repr

/-- `key` is the number of the key once it has been created, `specific` the value of each thread for it; `printed` is
what the threads have printed of the strings they were returned, each with the thread and the number of its last
call. -/
structure Sys where
  key : Option Nat
  specific : Nat → Option Addr
  heap : Heap CString
  pc : Nat → Pc
  printed : List (Nat × Int × CString)

/-- A step of thread `i`. -/
inductive Event where
  | call (i : Nat) (errnum : Int)
  /-- `pthread_once`; where it runs `make_key`, the key gets the number `key`. -/
  | once (i key : Nat)
  | getspecific (i : Nat)
  /-- `malloc` returns `a`, where the bytes are those of `raw`. -/
  | malloc (i : Nat) (a : Addr) (raw : CString)
  | setspecific (i : Nat)
  | strcpy (i : Nat)
  | print (i : Nat)
  | exit (i : Nat)

/-- `pthread_getspecific`: NULL for a number that is not the key's. -/
def pthreadGetspecific (s : Sys) (i key : Nat) : Option Addr := if s.key = some key then s.specific i else none

/-- The `pthread_key_t` at the beginning of a text. -/
def keyAt (text : CString) : Nat := ofLeBytes ((text.take 4).map UInt8.toNat)

/-- `key_destructor(ptr)`, called when the value of the thread has been set to NULL; `free(NULL)` does nothing. -/
def keyDestructor (s : Sys) (i : Nat) (ptr : Addr) : Option (Heap CString) :=
  (s.heap.load ptr).bind fun text =>
    match pthreadGetspecific s i (keyAt text) with
    | none => some s.heap
    | some str => s.heap.free str

def Sys.setPc (s : Sys) (i : Nat) (pc : Pc) : Sys := { s with pc := Function.update s.pc i pc }

def step (s : Sys) : Event → Option Sys
  | .call i errnum =>
    match s.pc i with
    | .outside _ => some (s.setPc i (.called errnum))
    | _ => none
  | .once i key =>
    match s.pc i with
    | .called errnum => some ({ s with key := s.key.or (some key) }.setPc i (.keyed errnum))
    | _ => none
  | .getspecific i =>
    match s.pc i with
    | .keyed errnum =>
      s.key.bind fun key =>
        match pthreadGetspecific s i key with
        | none => some (s.setPc i (.null errnum))
        | some ptr => some (s.setPc i (.found errnum ptr))
    | _ => none
  | .malloc i a raw =>
    match s.pc i with
    | .null errnum => (s.heap.malloc a raw).map fun heap => { s with heap := heap }.setPc i (.allocated errnum a)
    | _ => none
  | .setspecific i =>
    match s.pc i with
    | .allocated errnum ptr =>
      some ({ s with specific := Function.update s.specific i (some ptr) }.setPc i (.found errnum ptr))
    | _ => none
  | .strcpy i =>
    match s.pc i with
    | .found errnum ptr =>
      (s.heap.modify ptr fun _ => errText errnum).map fun heap =>
        { s with heap := heap }.setPc i (.outside (some (ptr, errnum)))
    | _ => none
  | .print i =>
    match s.pc i with
    | .outside (some (ptr, errnum)) =>
      (s.heap.load ptr).map fun text => { s with printed := s.printed ++ [(i, errnum, text)] }
    | _ => none
  | .exit i =>
    match s.pc i with
    | .outside _ =>
      match s.specific i with
      | none => some (s.setPc i .exited)
      | some ptr =>
        let s := { s with specific := Function.update s.specific i none }
        (keyDestructor s i ptr).map fun heap => { s with heap := heap }.setPc i .exited
    | _ => none

def start : Sys :=
  { key := none, specific := fun _ => none, heap := ∅, pc := fun _ => .outside none, printed := [] }

variable {s t : Sys} {i j : Nat} {a : Addr}

/-- The texts fit into the 100 bytes of a buffer. -/
theorem length_errText_lt (errnum : Int) : (errText errnum).length < 100 := by
  unfold errText
  split
  · decide
  · split <;> decide

/-! ## Whose buffer it is -/

/-- The buffer is the thread's value, or is going to be. -/
def Owns (s : Sys) (i : Nat) (a : Addr) : Prop := s.specific i = some a ∨ ∃ errnum, s.pc i = .allocated errnum a

/-- What a thread at `pc` relies on. -/
def Relies (s : Sys) (i : Nat) : Pc → Prop
  | .outside none => s.specific i = none
  | .outside (some (ptr, errnum)) => s.specific i = some ptr ∧ s.heap.load ptr = some (errText errnum)
  | .called _ => True
  | .keyed _ => s.key.isSome
  | .null _ => s.specific i = none
  | .allocated _ _ => s.specific i = none
  | .found _ ptr => s.specific i = some ptr
  | .exited => s.specific i = none

structure Inv (s : Sys) : Prop where
  mem : ∀ i a, Owns s i a → a ∈ s.heap
  own : ∀ i j a, Owns s i a → Owns s j a → i = j
  relies : ∀ i, Relies s i (s.pc i)
  printed : ∀ p ∈ s.printed, p.2.2 = errText p.2.1

@[simp] theorem setPc_specific (s : Sys) (i : Nat) (pc : Pc) : (s.setPc i pc).specific = s.specific := rfl

@[simp] theorem setPc_heap (s : Sys) (i : Nat) (pc : Pc) : (s.setPc i pc).heap = s.heap := rfl

theorem setPc_pc_self (s : Sys) (i : Nat) (pc : Pc) : (s.setPc i pc).pc i = pc := Function.update_self ..

theorem setPc_pc_ne (s : Sys) {i j : Nat} (pc : Pc) (h : j ≠ i) : (s.setPc i pc).pc j = s.pc j :=
  Function.update_of_ne h ..

/-- Another thread's texts stay while it keeps its value, the key and the text of its buffer. -/
theorem Relies.congr {pc : Pc} (h : Relies s j pc) (hspecific : t.specific j = s.specific j)
    (hkey : s.key.isSome → t.key.isSome) (hload : ∀ a, s.specific j = some a → t.heap.load a = s.heap.load a) :
    Relies t j pc := by
  cases pc with
  | outside last =>
    cases last with
    | none => exact hspecific.trans h
    | some p => exact ⟨hspecific.trans h.1, (hload _ h.1).trans h.2⟩
  | called errnum => trivial
  | keyed errnum => exact hkey h
  | null errnum => exact hspecific.trans h
  | allocated errnum ptr => exact hspecific.trans h
  | found errnum ptr => exact hspecific.trans h
  | exited => exact hspecific.trans h

/-- A step of thread `i` that moves it to `pc` and takes no buffer from anybody. -/
theorem Inv.setPc (h : Inv s) (pc : Pc) (hself : Relies t i pc) (hpc : t.pc = Function.update s.pc i pc)
    (hspecific : ∀ j, j ≠ i → t.specific j = s.specific j) (hkey : s.key.isSome → t.key.isSome)
    (hload : ∀ j, j ≠ i → ∀ a, s.specific j = some a → t.heap.load a = s.heap.load a)
    (hmem : ∀ a ∈ s.heap, a ∈ t.heap)
    (howns : ∀ a, Owns t i a → Owns s i a ∨ (a ∉ s.heap ∧ a ∈ t.heap))
    (hprinted : t.printed = s.printed) : Inv t := by
  have hpcNe : ∀ j, j ≠ i → t.pc j = s.pc j := fun j hj => by rw [hpc, Function.update_of_ne hj]
  have hothers : ∀ j, j ≠ i → ∀ a, Owns t j a → Owns s j a := by
    rintro j hj a (ha | ⟨errnum, ha⟩)
    · exact .inl ((hspecific j hj).symm.trans ha)
    · exact .inr ⟨errnum, (hpcNe j hj).symm.trans ha⟩
  have hall : ∀ j a, Owns t j a → a ∈ t.heap := by
    intro j a ha
    by_cases hj : j = i
    · subst hj
      rcases howns a ha with ha | ⟨-, ha⟩
      · exact hmem a (h.mem j a ha)
      · exact ha
    · exact hmem a (h.mem j a (hothers j hj a ha))
  refine ⟨hall, fun j k a hj hk => ?_, fun j => ?_, fun p hp => h.printed p (by rw [← hprinted]; exact hp)⟩
  · by_cases hji : j = i
    · by_cases hki : k = i
      · exact hji.trans hki.symm
      · subst hji
        have hk := hothers k hki a hk
        rcases howns a hj with hj | ⟨hj, -⟩
        · exact h.own j k a hj hk
        · exact absurd (h.mem k a hk) hj
    · have hj := hothers j hji a hj
      by_cases hki : k = i
      · subst hki
        rcases howns a hk with hk | ⟨hk, -⟩
        · exact h.own j k a hj hk
        · exact absurd (h.mem j a hj) hk
      · exact h.own j k a hj (hothers k hki a hk)
  · by_cases hj : j = i
    · subst hj
      rw [hpc, Function.update_self]
      exact hself
    · rw [hpcNe j hj]
      exact (h.relies j).congr (hspecific j hj) hkey (hload j hj)

theorem owns_of_pc {pc : Pc} (hspecific : t.specific i = s.specific i) (hpc : t.pc i = pc)
    (hnot : ∀ errnum a, pc ≠ .allocated errnum a) (a : Addr) (h : Owns t i a) :
    Owns s i a ∨ (a ∉ s.heap ∧ a ∈ t.heap) := by
  rcases h with h | ⟨errnum, h⟩
  · exact .inl (.inl (hspecific.symm.trans h))
  · exact absurd (hpc.symm.trans h) (hnot errnum a)

/-! ## The steps -/

theorem Inv.call (h : Inv s) {errnum : Int} (hs : step s (.call i errnum) = some t) : Inv t := by
  simp only [step] at hs
  split at hs
  · obtain rfl := Option.some.inj hs
    exact h.setPc (.called errnum) trivial rfl (fun _ _ => rfl) id (fun _ _ _ _ => rfl) (fun _ ha => ha)
      (owns_of_pc rfl (setPc_pc_self s i _) nofun) rfl
  · cases hs

theorem Inv.once (h : Inv s) {key : Nat} (hs : step s (.once i key) = some t) : Inv t := by
  simp only [step] at hs
  split at hs
  · rename_i errnum hpc
    obtain rfl := Option.some.inj hs
    have hkey : (s.key.or (some key)).isSome := by cases s.key <;> rfl
    exact h.setPc (.keyed errnum) hkey rfl (fun _ _ => rfl) (fun _ => hkey) (fun _ _ _ _ => rfl) (fun _ ha => ha)
      (owns_of_pc rfl (Function.update_self ..) nofun) rfl
  · cases hs

theorem Inv.getspecific (h : Inv s) (hs : step s (.getspecific i) = some t) : Inv t := by
  simp only [step] at hs
  split at hs
  · rename_i errnum hpc
    obtain ⟨key, hkey, hs⟩ := Option.bind_eq_some_iff.1 hs
    rw [pthreadGetspecific, if_pos hkey] at hs
    split at hs
    · rename_i hnone
      obtain rfl := Option.some.inj hs
      exact h.setPc (.null errnum) hnone rfl (fun _ _ => rfl) id (fun _ _ _ _ => rfl) (fun _ ha => ha)
        (owns_of_pc rfl (setPc_pc_self s i _) nofun) rfl
    · rename_i ptr hptr
      obtain rfl := Option.some.inj hs
      exact h.setPc (.found errnum ptr) hptr rfl (fun _ _ => rfl) id (fun _ _ _ _ => rfl) (fun _ ha => ha)
        (owns_of_pc rfl (setPc_pc_self s i _) nofun) rfl
  · cases hs

theorem mem_iff_load {heap : Heap CString} : a ∈ heap ↔ (heap.load a).isSome := AList.lookup_isSome.symm

theorem Inv.malloc (h : Inv s) {raw : CString} (hs : step s (.malloc i a raw) = some t) : Inv t := by
  simp only [step] at hs
  split at hs
  · rename_i errnum hpc
    obtain ⟨heap, hheap, rfl⟩ := Option.map_eq_some_iff.1 hs
    have hfresh := Heap.not_mem_of_malloc hheap
    have hrelies := h.relies i
    rw [hpc] at hrelies
    have hkept : ∀ b ∈ s.heap, heap.load b = s.heap.load b := fun b hb =>
      Heap.load_malloc_ne hheap fun hba => hfresh (hba ▸ hb)
    refine h.setPc (.allocated errnum a) hrelies rfl (fun _ _ => rfl) id (fun j _ b hb => hkept b (h.mem j b (.inl hb)))
      (fun b hb => ?_) (fun b hb => ?_) rfl
    · show b ∈ heap
      rw [mem_iff_load, hkept b hb]
      exact mem_iff_load.1 hb
    · rcases hb with hb | ⟨errnum', hb⟩
      · exact .inl (.inl hb)
      · obtain ⟨-, rfl⟩ := Pc.allocated.inj ((setPc_pc_self { s with heap := heap } i _).symm.trans hb)
        exact .inr ⟨hfresh, Heap.mem_of_load (Heap.load_malloc hheap)⟩
  · cases hs

theorem Inv.setspecific (h : Inv s) (hs : step s (.setspecific i) = some t) : Inv t := by
  simp only [step] at hs
  split at hs
  · rename_i errnum ptr hpc
    obtain rfl := Option.some.inj hs
    have hself : Function.update s.specific i (some ptr) i = some ptr := Function.update_self i (some ptr) s.specific
    refine h.setPc (.found errnum ptr) hself rfl (fun j hj => Function.update_of_ne hj ..) id
      (fun _ _ _ _ => rfl) (fun _ ha => ha) (fun b hb => .inl ?_) rfl
    rcases hb with hb | ⟨errnum', hb⟩
    · obtain rfl : ptr = b := Option.some.inj (hself.symm.trans hb)
      exact .inr ⟨errnum, hpc⟩
    · cases (setPc_pc_self _ i _).symm.trans hb
  · cases hs

theorem Inv.strcpy (h : Inv s) (hs : step s (.strcpy i) = some t) : Inv t := by
  simp only [step] at hs
  split at hs
  · rename_i errnum ptr hpc
    obtain ⟨heap, hheap, rfl⟩ := Option.map_eq_some_iff.1 hs
    have hrelies : s.specific i = some ptr := by
      have := h.relies i
      rwa [hpc] at this
    obtain ⟨text, htext⟩ : ∃ text, s.heap.load ptr = some text :=
      Option.isSome_iff_exists.1 (mem_iff_load.1 (h.mem i ptr (.inl hrelies)))
    have hnew : heap.load ptr = some (errText errnum) :=
      Heap.load_modify_of_load (f := fun _ => errText errnum) htext hheap
    refine h.setPc (.outside (some (ptr, errnum))) ⟨hrelies, hnew⟩ rfl (fun _ _ => rfl) id
      (fun j hj b hb => ?_) (fun b hb => ?_) (owns_of_pc rfl (Function.update_self ..) nofun) rfl
    · refine Heap.load_modify_ne hheap fun hbp => hj ?_
      exact h.own j i ptr (.inl (hbp ▸ hb)) (.inl hrelies)
    · show b ∈ heap
      by_cases hbp : b = ptr
      · rw [hbp]
        exact Heap.mem_of_load hnew
      · rw [mem_iff_load, Heap.load_modify_ne hheap hbp]
        exact mem_iff_load.1 hb
  · cases hs

theorem Inv.print (h : Inv s) (hs : step s (.print i) = some t) : Inv t := by
  simp only [step] at hs
  split at hs
  · rename_i ptr errnum hpc
    obtain ⟨text, htext, rfl⟩ := Option.map_eq_some_iff.1 hs
    have hrelies := h.relies i
    rw [hpc] at hrelies
    refine ⟨h.mem, h.own, h.relies, fun p hp => ?_⟩
    rcases List.mem_append.1 hp with hp | hp
    · exact h.printed p hp
    · rw [List.mem_singleton.1 hp]
      exact Option.some.inj (htext.symm.trans hrelies.2)
  · cases hs

/-- The value has been set to NULL before the destructor asks for it. -/
theorem keyDestructor_eq (h : s.specific i = none) (ptr : Addr) :
    keyDestructor s i ptr = (s.heap.load ptr).map fun _ => s.heap := by
  have hnull : ∀ key, pthreadGetspecific s i key = none := fun key => by
    rw [pthreadGetspecific, h]
    split <;> rfl
  rw [keyDestructor]
  cases s.heap.load ptr with
  | none => rfl
  | some text =>
    rw [Option.bind_some, hnull]
    rfl

theorem exit_cases (hs : step s (.exit i) = some t) :
    t = { s with specific := Function.update s.specific i none }.setPc i .exited := by
  simp only [step] at hs
  split at hs
  · split at hs
    · rename_i hnone
      obtain rfl := Option.some.inj hs
      rw [← hnone, Function.update_eq_self]
    · rename_i ptr hptr
      have hnull : Function.update s.specific i none i = none := Function.update_self i none s.specific
      have hdestroy := keyDestructor_eq (s := { s with specific := Function.update s.specific i none }) hnull ptr
      rw [hdestroy] at hs
      obtain ⟨heap, hheap, rfl⟩ := Option.map_eq_some_iff.1 hs
      obtain ⟨text, -, rfl⟩ := Option.map_eq_some_iff.1 hheap
      rfl
  · cases hs

theorem Inv.exit (h : Inv s) (hs : step s (.exit i) = some t) : Inv t := by
  obtain rfl := exit_cases hs
  have hnull : Function.update s.specific i none i = none := Function.update_self i none s.specific
  refine h.setPc .exited hnull rfl (fun j hj => Function.update_of_ne hj ..) id (fun _ _ _ _ => rfl)
    (fun _ ha => ha) (fun b hb => ?_) rfl
  rcases hb with hb | ⟨errnum', hb⟩
  · cases hnull.symm.trans hb
  · cases (setPc_pc_self _ i _).symm.trans hb

theorem Inv.step (h : Inv s) {e : Event} (hs : step s e = some t) : Inv t := by
  cases e with
  | call i errnum => exact h.call hs
  | once i key => exact h.once hs
  | getspecific i => exact h.getspecific hs
  | malloc i a raw => exact h.malloc hs
  | setspecific i => exact h.setspecific hs
  | strcpy i => exact h.strcpy hs
  | print i => exact h.print hs
  | exit i => exact h.exit hs

theorem inv_start : Inv start := by
  refine ⟨fun i a ha => ?_, fun i j a ha => ?_, fun i => rfl, nofun⟩
  · rcases ha with ha | ⟨errnum, ha⟩ <;> cases ha
  · rcases ha with ha | ⟨errnum, ha⟩ <;> cases ha

/-- **`err_str` is reentrant**: in every run of any number of threads, each string a thread prints is the text for the
number of its own last call, no buffer is two threads', and no thread comes to a `strcpy`, a print or an exit that reads
or writes memory it does not own. -/
theorem err_str_reentrant (es : List Event) (s : Sys) (hrun : run step start es = some s) :
    (∀ p ∈ s.printed, p.2.2 = errText p.2.1) ∧
    (∀ i j a, s.specific i = some a → s.specific j = some a → i = j) ∧
    (∀ i errnum ptr, s.pc i = .found errnum ptr → (step s (.strcpy i)).isSome) ∧
    (∀ i last, s.pc i = .outside last → (last.isSome → (step s (.print i)).isSome) ∧ (step s (.exit i)).isSome) := by
  have h : Inv s := Run.run_inv (fun _ _ _ h hs => Inv.step h hs) inv_start hrun
  have hload : ∀ i ptr, s.specific i = some ptr → ∃ text, s.heap.load ptr = some text := fun i ptr hptr =>
    Option.isSome_iff_exists.1 (mem_iff_load.1 (h.mem i ptr (.inl hptr)))
  refine ⟨h.printed, fun i j a hi hj => h.own i j a (.inl hi) (.inl hj), fun i errnum ptr hpc => ?_,
    fun i last hpc => ⟨fun hsome => ?_, ?_⟩⟩
  · have hrelies := h.relies i
    rw [hpc] at hrelies
    obtain ⟨text, htext⟩ := hload i ptr hrelies
    obtain ⟨heap, hheap, -⟩ := Heap.exists_modify htext fun _ => errText errnum
    simp only [step, hpc, hheap]
    rfl
  · obtain ⟨⟨ptr, errnum⟩, rfl⟩ := Option.isSome_iff_exists.1 hsome
    have hrelies := h.relies i
    rw [hpc] at hrelies
    simp only [step, hpc, hrelies.2]
    rfl
  · cases hspecific : s.specific i with
    | none =>
      simp only [step, hpc, hspecific]
      rfl
    | some ptr =>
      obtain ⟨text, htext⟩ := hload i ptr hspecific
      have hnull : Function.update s.specific i none i = none := Function.update_self i none s.specific
      have hdestroy := keyDestructor_eq (s := { s with specific := Function.update s.specific i none }) hnull ptr
      simp only [step, hpc, hspecific, hdestroy, htext]
      rfl

/-- Two threads call at the same time; the second creates the key, and both print before they exit. -/
def twoThreads : List Event :=
  [.call 1 0, .call 2 7, .once 2 0, .once 1 0, .getspecific 1, .getspecific 2, .malloc 1 100 [], .malloc 2 300 [],
    .setspecific 2, .setspecific 1, .strcpy 1, .strcpy 2, .print 1, .print 2, .exit 1, .exit 2]

theorem run_twoThreads : ∃ s, run step start twoThreads = some s ∧
    s.printed.map (fun p => (p.1, p.2.1)) = [(1, 0), (2, 7)] ∧ s.pc 1 = .exited ∧ s.pc 2 = .exited :=
  ⟨_, rfl, rfl, rfl, rfl⟩

theorem err_str_reentrant_twoThreads : ∃ s, run step start twoThreads = some s ∧
    s.printed.map (fun p => (p.1, p.2.1)) = [(1, 0), (2, 7)] ∧ ∀ p ∈ s.printed, p.2.2 = errText p.2.1 := by
  obtain ⟨s, hrun, hprinted, -, -⟩ := run_twoThreads
  exact ⟨s, hrun, hprinted, (err_str_reentrant twoThreads s hrun).1⟩

/-! ## The buffers are never freed -/

def callerOf : Event → Option Nat
  | .call i _ => some i
  | _ => none

def allocatorOf : Event → Option Nat
  | .malloc i _ _ => some i
  | _ => none

/-- The threads that call `err_str`, one entry for each call. -/
def callers (es : List Event) : List Nat := es.filterMap callerOf

/-- The threads that allocate a buffer, one entry for each buffer. -/
def allocators (es : List Event) : List Nat := es.filterMap allocatorOf

@[simp] theorem mem_callers_concat {es : List Event} {e : Event} :
    i ∈ callers (es ++ [e]) ↔ i ∈ callers es ∨ callerOf e = some i := by
  simp [callers, List.filterMap_append, List.filterMap_cons]
  cases callerOf e <;> simp [eq_comm]

@[simp] theorem mem_allocators_concat {es : List Event} {e : Event} :
    i ∈ allocators (es ++ [e]) ↔ i ∈ allocators es ∨ allocatorOf e = some i := by
  simp [allocators, List.filterMap_append, List.filterMap_cons]
  cases allocatorOf e <;> simp [eq_comm]

/-- What a thread at `pc` has called and allocated. -/
def Accounts (s : Sys) (es : List Event) (i : Nat) : Pc → Prop
  | .outside none => i ∉ callers es ∧ i ∉ allocators es
  | .outside (some _) => i ∈ callers es ∧ i ∈ allocators es
  | .called _ => i ∈ callers es ∧ (i ∈ allocators es ↔ (s.specific i).isSome)
  | .keyed _ => i ∈ callers es ∧ (i ∈ allocators es ↔ (s.specific i).isSome)
  | .null _ => i ∈ callers es ∧ i ∉ allocators es
  | .allocated _ _ => i ∈ callers es ∧ i ∈ allocators es
  | .found _ _ => i ∈ callers es ∧ i ∈ allocators es
  | .exited => i ∈ callers es ↔ i ∈ allocators es

/-- The records of the heap are the buffers allocated so far, at most one a thread. -/
structure Counted (es : List Event) (s : Sys) : Prop where
  inv : Inv s
  size : s.heap.size = (allocators es).length
  nodup : (allocators es).Nodup
  accounts : ∀ i, Accounts s es i (s.pc i)

variable {es : List Event} {e : Event}

/-- Another thread's call or buffer is not counted for this one. -/
theorem Accounts.congr {pc : Pc} (h : Accounts s es j pc) (hspecific : t.specific j = s.specific j)
    (hcaller : callerOf e ≠ some j) (hallocator : allocatorOf e ≠ some j) : Accounts t (es ++ [e]) j pc := by
  have hcallers : j ∈ callers (es ++ [e]) ↔ j ∈ callers es := by simp [hcaller]
  have hallocators : j ∈ allocators (es ++ [e]) ↔ j ∈ allocators es := by simp [hallocator]
  cases pc with
  | outside last => cases last <;> simpa only [Accounts, hcallers, hallocators] using h
  | called errnum => simpa only [Accounts, hcallers, hallocators, hspecific] using h
  | keyed errnum => simpa only [Accounts, hcallers, hallocators, hspecific] using h
  | null errnum => simpa only [Accounts, hcallers, hallocators] using h
  | allocated errnum ptr => simpa only [Accounts, hcallers, hallocators] using h
  | found errnum ptr => simpa only [Accounts, hcallers, hallocators] using h
  | exited => simpa only [Accounts, hcallers, hallocators] using h

/-- A step of thread `i` that allocates nothing. -/
theorem Counted.setPc (h : Counted es s) (ht : Inv t) (pc : Pc) (hpc : t.pc = Function.update s.pc i pc)
    (hself : Accounts t (es ++ [e]) i pc) (hspecific : ∀ j, j ≠ i → t.specific j = s.specific j)
    (hsize : t.heap.size = s.heap.size) (hcaller : ∀ j, j ≠ i → callerOf e ≠ some j)
    (hallocator : allocatorOf e = none) :
    Counted (es ++ [e]) t := by
  have hnone : allocators (es ++ [e]) = allocators es := by simp [allocators, List.filterMap_append, hallocator]
  refine ⟨ht, by rw [hnone, hsize, h.size], by rw [hnone]; exact h.nodup, fun j => ?_⟩
  by_cases hj : j = i
  · subst hj
    rw [hpc, Function.update_self]
    exact hself
  · rw [hpc, Function.update_of_ne hj]
    refine (h.accounts j).congr (hspecific j hj) (hcaller j hj) ?_
    rw [hallocator]
    nofun

theorem Counted.call (h : Counted es s) {errnum : Int} (hs : step s (.call i errnum) = some t) :
    Counted (es ++ [.call i errnum]) t := by
  have ht := h.inv.step hs
  have hcaller : ∀ j, j ≠ i → callerOf (.call i errnum) ≠ some j := fun j hj heq => hj (Option.some.inj heq).symm
  simp only [step] at hs
  split at hs
  · rename_i last hpc
    obtain rfl := Option.some.inj hs
    have hrelies := h.inv.relies i
    have haccounts := h.accounts i
    rw [hpc] at hrelies haccounts
    refine h.setPc ht (.called errnum) rfl ⟨by simp [callerOf], ?_⟩ (fun _ _ => rfl) rfl hcaller rfl
    cases last with
    | none => simp [Sys.setPc, allocatorOf, haccounts.2, show s.specific i = none from hrelies]
    | some p => simp [Sys.setPc, allocatorOf, haccounts.2, hrelies.1]
  · cases hs

theorem Counted.once (h : Counted es s) {key : Nat} (hs : step s (.once i key) = some t) :
    Counted (es ++ [.once i key]) t := by
  have ht := h.inv.step hs
  simp only [step] at hs
  split at hs
  · rename_i errnum hpc
    obtain rfl := Option.some.inj hs
    have haccounts := h.accounts i
    rw [hpc] at haccounts
    refine h.setPc ht (.keyed errnum) rfl ?_ (fun _ _ => rfl) rfl (fun _ _ => nofun) rfl
    simpa [Accounts, callerOf, allocatorOf] using haccounts
  · cases hs

theorem Counted.getspecific (h : Counted es s) (hs : step s (.getspecific i) = some t) :
    Counted (es ++ [.getspecific i]) t := by
  have ht := h.inv.step hs
  simp only [step] at hs
  split at hs
  · rename_i errnum hpc
    obtain ⟨key, hkey, hs⟩ := Option.bind_eq_some_iff.1 hs
    rw [pthreadGetspecific, if_pos hkey] at hs
    have haccounts := h.accounts i
    rw [hpc] at haccounts
    split at hs
    · rename_i hnone
      obtain rfl := Option.some.inj hs
      refine h.setPc ht (.null errnum) rfl ?_ (fun _ _ => rfl) rfl (fun _ _ => nofun) rfl
      simpa [Accounts, callerOf, allocatorOf, hnone] using haccounts
    · rename_i ptr hptr
      obtain rfl := Option.some.inj hs
      refine h.setPc ht (.found errnum ptr) rfl ?_ (fun _ _ => rfl) rfl (fun _ _ => nofun) rfl
      simpa [Accounts, callerOf, allocatorOf, hptr] using haccounts
  · cases hs

theorem Counted.malloc (h : Counted es s) {raw : CString} (hs : step s (.malloc i a raw) = some t) :
    Counted (es ++ [.malloc i a raw]) t := by
  have ht := h.inv.step hs
  simp only [step] at hs
  split at hs
  · rename_i errnum hpc
    obtain ⟨heap, hheap, rfl⟩ := Option.map_eq_some_iff.1 hs
    have haccounts := h.accounts i
    rw [hpc] at haccounts
    have hmore : allocators (es ++ [.malloc i a raw]) = allocators es ++ [i] := by
      simp [allocators, List.filterMap_append, allocatorOf]
    refine ⟨ht, ?_, ?_, fun j => ?_⟩
    · rw [setPc_heap, hmore, List.length_append, ← h.size]
      exact Heap.size_malloc hheap
    · rw [hmore]
      exact List.nodup_append_comm.1 (List.nodup_cons.2 ⟨haccounts.2, h.nodup⟩)
    · by_cases hj : j = i
      · subst hj
        rw [setPc_pc_self]
        simp [Accounts, callerOf, allocatorOf, haccounts.1]
      · rw [setPc_pc_ne _ _ hj]
        exact (h.accounts j).congr rfl nofun fun heq => hj (Option.some.inj heq).symm
  · cases hs

theorem Counted.setspecific (h : Counted es s) (hs : step s (.setspecific i) = some t) :
    Counted (es ++ [.setspecific i]) t := by
  have ht := h.inv.step hs
  simp only [step] at hs
  split at hs
  · rename_i errnum ptr hpc
    obtain rfl := Option.some.inj hs
    have haccounts := h.accounts i
    rw [hpc] at haccounts
    refine h.setPc ht (.found errnum ptr) rfl ?_ (fun j hj => Function.update_of_ne hj ..) rfl (fun _ _ => nofun) rfl
    simpa [Accounts, callerOf, allocatorOf] using haccounts
  · cases hs

theorem Counted.strcpy (h : Counted es s) (hs : step s (.strcpy i) = some t) : Counted (es ++ [.strcpy i]) t := by
  have ht := h.inv.step hs
  simp only [step] at hs
  split at hs
  · rename_i errnum ptr hpc
    obtain ⟨heap, hheap, rfl⟩ := Option.map_eq_some_iff.1 hs
    have haccounts := h.accounts i
    rw [hpc] at haccounts
    refine h.setPc ht (.outside (some (ptr, errnum))) rfl ?_ (fun _ _ => rfl) (Heap.size_modify hheap)
      (fun _ _ => nofun) rfl
    simpa [Accounts, callerOf, allocatorOf] using haccounts
  · cases hs

theorem Counted.print (h : Counted es s) (hs : step s (.print i) = some t) : Counted (es ++ [.print i]) t := by
  have ht := h.inv.step hs
  simp only [step] at hs
  split at hs
  · rename_i ptr errnum hpc
    obtain ⟨text, htext, rfl⟩ := Option.map_eq_some_iff.1 hs
    have haccounts := h.accounts i
    refine h.setPc ht (s.pc i) (Function.update_eq_self i s.pc).symm ?_ (fun _ _ => rfl) rfl (fun _ _ => nofun) rfl
    rw [hpc] at haccounts ⊢
    simpa [Accounts, callerOf, allocatorOf] using haccounts
  · cases hs

theorem Counted.exit (h : Counted es s) (hs : step s (.exit i) = some t) : Counted (es ++ [.exit i]) t := by
  have ht := h.inv.step hs
  have haccounts := h.accounts i
  obtain rfl := exit_cases hs
  refine h.setPc ht .exited rfl ?_ (fun j hj => Function.update_of_ne hj ..) rfl (fun _ _ => nofun) rfl
  obtain ⟨last, hpc⟩ : ∃ last, s.pc i = .outside last := by
    simp only [step] at hs
    split at hs
    · exact ⟨_, by assumption⟩
    · cases hs
  rw [hpc] at haccounts
  cases last with
  | none => simp [Accounts, callerOf, allocatorOf, haccounts.1, haccounts.2]
  | some p => simp [Accounts, callerOf, allocatorOf, haccounts.1, haccounts.2]

theorem Counted.step (h : Counted es s) (hs : step s e = some t) : Counted (es ++ [e]) t := by
  cases e with
  | call i errnum => exact h.call hs
  | once i key => exact h.once hs
  | getspecific i => exact h.getspecific hs
  | malloc i a raw => exact h.malloc hs
  | setspecific i => exact h.setspecific hs
  | strcpy i => exact h.strcpy hs
  | print i => exact h.print hs
  | exit i => exact h.exit hs

theorem counted_start : Counted [] start :=
  ⟨inv_start, rfl, List.nodup_nil, fun _ => ⟨List.not_mem_nil, List.not_mem_nil⟩⟩

/-- A thread that has not called `err_str` has nothing. -/
theorem Counted.of_not_caller (h : Counted es s) (hi : i ∉ callers es) : s.specific i = none ∧ i ∉ allocators es := by
  have hrelies := h.inv.relies i
  have haccounts := h.accounts i
  cases hpc : s.pc i with
  | outside last =>
    rw [hpc] at hrelies haccounts
    cases last with
    | none => exact ⟨hrelies, haccounts.2⟩
    | some p => exact absurd haccounts.1 hi
  | exited =>
    rw [hpc] at hrelies haccounts
    exact ⟨hrelies, fun ha => hi (haccounts.2 ha)⟩
  | _ =>
    rw [hpc] at haccounts
    exact absurd haccounts.1 hi

/-- **`key_destructor` frees nothing**: in every run each buffer is still in the heap and each thread has allocated at
most one; when the threads that have called `err_str` have all exited, no thread has a buffer and the heap has one for
each of them. -/
theorem buffers_leak (es : List Event) (s : Sys) (hrun : run step start es = some s) :
    s.heap.size = (allocators es).length ∧ (allocators es).Nodup ∧
    ((∀ i ∈ callers es, s.pc i = .exited) →
      (∀ i, s.specific i = none) ∧ s.heap.size = (callers es).dedup.length) := by
  have h : Counted es s := Run.run_inv_events (fun _ _ _ _ h hs => Counted.step h hs) counted_start hrun
  refine ⟨h.size, h.nodup, fun hexited => ⟨fun i => ?_, ?_⟩⟩
  · by_cases hi : i ∈ callers es
    · have hrelies := h.inv.relies i
      rwa [hexited i hi] at hrelies
    · exact (h.of_not_caller hi).1
  · have hmem : ∀ i, i ∈ allocators es ↔ i ∈ (callers es).dedup := by
      intro i
      rw [List.mem_dedup]
      by_cases hi : i ∈ callers es
      · have haccounts := h.accounts i
        rw [hexited i hi] at haccounts
        exact haccounts.symm
      · exact iff_of_false (h.of_not_caller hi).2 hi
    rw [h.size]
    exact ((List.perm_ext_iff_of_nodup h.nodup (callers es).nodup_dedup).2 hmem).length_eq

theorem buffers_leak_twoThreads : ∃ s, run step start twoThreads = some s ∧
    (∀ i, s.specific i = none) ∧ s.heap.size = 2 := by
  obtain ⟨s, hrun, -, h1, h2⟩ := run_twoThreads
  have hexited : ∀ i ∈ callers twoThreads, s.pc i = .exited := by
    intro i hi
    have hcases : i = 1 ∨ i = 2 := by simpa [callers, callerOf, twoThreads] using hi
    rcases hcases with rfl | rfl
    · exact h1
    · exact h2
  obtain ⟨hspecific, hsize⟩ := (buffers_leak twoThreads s hrun).2.2 hexited
  exact ⟨s, hrun, hspecific, hsize⟩

end ErrStr
end Eltex
