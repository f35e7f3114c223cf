import EltexTasks.CString
import EltexTasks.Update
/-!
# Plugins — the calculator's plugins

ldl_calculator/main.c: `load_funcs`, `calc_menu`.  The third of the checks of `load_funcs` tests the error of the second
again, so a plugin whose function is missing is loaded like the others, and `strncpy` writes no NUL after a name that it
cuts (`load_funcs_iff`).
-/
namespace Eltex
namespace Plugins

abbrev BinaryFunc := Int → Int → Int

/-- What `dlsym` finds in an opened plugin: the string that `func_name` points to, and the functions by their names. -/
structure Plugin where
  funcName : Option CString
  function : CString → Option BinaryFunc
  nul_free : ∀ name, funcName = some name → 0 ∉ name

/-- `plugin_data`; `none` is a NULL `p_func`. -/
structure PluginData where
  pFunc : Option BinaryFunc
  funcName : List Byte
  length : funcName.length = 100

def pluginsFolder : CString := str ['.', '/', 'p', 'l', 'u', 'g', 'i', 'n', 's', '/']

/-- `filename`, after `strcpy` and `strncat`. -/
def filename (dName : CString) : CString := pluginsFolder ++ dName.take (513 - 11)

/-- `strncpy`: the array at `dst` afterwards. -/
def strncpy (dst : List Byte) (src : CString) (n : Nat) : List Byte :=
  src.take n ++ List.replicate (n - src.length) 0 ++ dst.drop n

theorem length_strncpy (dst : List Byte) (src : CString) {n : Nat} (h : n ≤ dst.length) :
    (strncpy dst src n).length = dst.length := by
  rw [strncpy, List.length_append, List.length_append, List.length_take, List.length_replicate, List.length_drop]
  omega

theorem length_filename (dName : CString) : (filename dName).length + 1 ≤ 513 := by
  rw [filename, List.length_append, List.length_take]
  have hfolder : pluginsFolder.length = 10 := rfl
  omega

/-- The assignments to an element of the array. -/
def PluginData.store (slot : PluginData) (funcName : CString) (func : Option BinaryFunc) : PluginData where
  pFunc := func
  funcName := strncpy slot.funcName funcName (100 - 1)
  length := by
    have hlen := slot.length
    rw [length_strncpy _ _ (by omega), hlen]

variable (dlopen : CString → Option Plugin)

/-- A round of the loop up to the assignments; `none` where it goes on to the next entry. -/
def loadEntry (dName : CString) : Option (CString × Option BinaryFunc) :=
  match dlopen (filename dName) with
  | none => none
  | some handle =>
    let dlerrReturn := handle.funcName.isNone
    match handle.funcName with
    | none => none
    | some funcName =>
      let func := handle.function funcName
      -- `dlerror` is not called again
      if dlerrReturn then none else some (funcName, func)

/-- The loop over the entries. -/
def loadLoop (arrSize : Nat) : List CString → Nat → List PluginData → Option (Nat × List PluginData)
  | [], count, arr => some (count, arr)
  | dName :: entries, count, arr =>
    match loadEntry dlopen dName with
    | none => loadLoop arrSize entries count arr
    | some (funcName, func) =>
      match arr[count]? with
      | none => none
      | some slot =>
        let arr := arr.set count (slot.store funcName func)
        if count + 1 ≥ arrSize then some (count + 1, arr) else loadLoop arrSize entries (count + 1) arr

/-- `load_funcs`: what it returns and the array it fills. -/
def loadFuncs (arr : List PluginData) (arrSize : Nat) (entries : List CString) : Option (Nat × List PluginData) :=
  loadLoop dlopen arrSize entries 0 arr

/-- The text of `func_name`; `none` where the array has no NUL. -/
def nameText (slot : PluginData) : Option CString := if 0 ∈ slot.funcName then some (cstr slot.funcName) else none

/-- The menu that is printed before each selection. -/
def menuNames (funcArr : List PluginData) (arrSize : Nat) : Option (List CString) :=
  (List.range arrSize).mapM fun i => funcArr[i]?.bind nameText

/-- `calc_menu` on the selections and operands entered: the menu and the line printed in each round. -/
def calcMenu (funcArr : List PluginData) (arrSize : Nat) :
    List (Int × Int × Int) → Option (List (List CString × Option (CString × Int)))
  | [] => (menuNames funcArr arrSize).map fun names => [(names, none)]
  | (input1, a, b) :: inputs => do
    let names ← menuNames funcArr arrSize
    -- a negative selection is past the end as a `size_t` too
    if input1 ≥ arrSize ∨ input1 < 0 then return [(names, none)]
    let slot ← funcArr[input1.toNat]?
    let func ← slot.pFunc
    let name ← nameText slot
    let rounds ← calcMenu funcArr arrSize inputs
    return (names, some (name, func a b)) :: rounds

/-! ## Usable plugins -/

/-- The plugin of an entry and its name, where the first two steps succeed. -/
def named (dName : CString) : Option (Plugin × CString) :=
  (dlopen (filename dName)).bind fun handle => handle.funcName.map fun name => (handle, name)

/-- The name and the function of an entry, where all three steps succeed. -/
def usable (dName : CString) : Option (CString × BinaryFunc) :=
  (named dlopen dName).bind fun p => (p.1.function p.2).map fun func => (p.2, func)

theorem loadEntry_eq (dName : CString) :
    loadEntry dlopen dName = (named dlopen dName).map fun p => (p.2, p.1.function p.2) := by
  unfold loadEntry named
  cases dlopen (filename dName) with
  | none => rfl
  | some handle => cases hname : handle.funcName <;> simp [hname]

/-! ## What is stored -/

variable {dlopen} {arrSize : Nat} {arr : List PluginData}

/-- **The loop loads every plugin that has a name**, until the array is full, whether its function was found or not. -/
theorem loadLoop_eq : ∀ (entries : List CString) (count : Nat) (arr : List PluginData), count < arrSize →
    arrSize ≤ arr.length → ∃ arr',
      loadLoop dlopen arrSize entries count arr =
        some (count + ((entries.filterMap (named dlopen)).take (arrSize - count)).length, arr') ∧
      (∀ i, i < count → arr'[i]? = arr[i]?) ∧
      ∀ k p, ((entries.filterMap (named dlopen)).take (arrSize - count))[k]? = some p →
        ∃ slot, arr[count + k]? = some slot ∧ arr'[count + k]? = some (slot.store p.2 (p.1.function p.2))
  | [], count, arr, _, _ => ⟨arr, by simp [loadLoop], fun _ _ => rfl, fun k p h => by simp at h⟩
  | dName :: entries, count, arr, hcount, hlen => by
    have hentry := loadEntry_eq dlopen dName
    cases hp : named dlopen dName with
    | none =>
      rw [hp, Option.map_none] at hentry
      rw [List.filterMap_cons_none hp, loadLoop, hentry]
      exact loadLoop_eq entries count arr hcount hlen
    | some p =>
      rw [hp, Option.map_some] at hentry
      obtain ⟨n, hn⟩ : ∃ n, arrSize - count = n + 1 := ⟨arrSize - count - 1, by omega⟩
      have hslot : arr[count]? = some arr[count] := List.getElem?_eq_getElem (by omega)
      have hset : (arr.set count (arr[count].store p.2 (p.1.function p.2)))[count]? =
          some (arr[count].store p.2 (p.1.function p.2)) := List.getElem?_set_self (by omega)
      have hkeep : ∀ i, i ≠ count → (arr.set count (arr[count].store p.2 (p.1.function p.2)))[i]? = arr[i]? :=
        fun i hi => List.getElem?_set_ne (Ne.symm hi)
      rw [List.filterMap_cons_some hp, hn, List.take_succ_cons, loadLoop, hentry]
      simp only [hslot]
      by_cases hfull : count + 1 ≥ arrSize
      · obtain rfl : n = 0 := by omega
        refine ⟨_, if_pos hfull, fun i hi => hkeep i (by omega), fun k q hk => ?_⟩
        cases k with
        | zero =>
          obtain rfl : p = q := by simpa using hk
          exact ⟨arr[count], hslot, hset⟩
        | succ k => simp at hk
      · obtain ⟨arr', hloop, hbefore, hafter⟩ := loadLoop_eq entries (count + 1)
          (arr.set count (arr[count].store p.2 (p.1.function p.2))) (by omega) (by rwa [List.length_set])
        rw [show arrSize - (count + 1) = n by omega] at hloop hafter
        refine ⟨arr', ?_, fun i hi => ?_, fun k q hk => ?_⟩
        · rw [if_neg hfull, hloop, List.length_cons, Nat.add_assoc, Nat.add_comm 1]
        · rw [hbefore i (by omega), hkeep i (by omega)]
        · cases k with
          | zero =>
            obtain rfl : p = q := by simpa using hk
            exact ⟨arr[count], hslot, (hbefore count (Nat.lt_succ_self count)).trans hset⟩
          | succ k =>
            rw [List.getElem?_cons_succ] at hk
            obtain ⟨slot, hold, hnew⟩ := hafter k q hk
            rw [hkeep _ (by omega), Nat.add_assoc, Nat.add_comm 1] at hold
            rw [Nat.add_assoc, Nat.add_comm 1] at hnew
            exact ⟨slot, hold, hnew⟩

/-- The name that is stored is NUL-terminated where it is short enough, or where the byte after it happens to be NUL. -/
theorem nul_mem_store {slot : PluginData} {name : CString} (hname : 0 ∉ name) (func : Option BinaryFunc) :
    (0 ∈ (slot.store name func).funcName ↔ name.length < 99 ∨ slot.funcName[99]? = some 0) ∧
      (0 ∈ (slot.store name func).funcName → cstr (slot.store name func).funcName = name.take 99) := by
  have hlen := slot.length
  have hlast : slot.funcName[99]? = some slot.funcName[99] := List.getElem?_eq_getElem (by omega)
  have hdrop : slot.funcName.drop 99 = [slot.funcName[99]] := by
    rw [List.drop_eq_getElem_cons (by omega), List.drop_of_length_le (by omega)]
  have hstored : (slot.store name func).funcName =
      name.take 99 ++ List.replicate (99 - name.length) (0 : Byte) ++ [slot.funcName[99]] := by
    rw [← hdrop]
    rfl
  have hnul : 0 ∉ name.take 99 := fun h => hname (List.mem_of_mem_take h)
  rw [hstored, hlast, Option.some_inj]
  by_cases hshort : name.length < 99
  · obtain ⟨k, hk⟩ : ∃ k, 99 - name.length = k + 1 := ⟨98 - name.length, by omega⟩
    rw [hk, List.replicate_succ, List.append_assoc, List.cons_append]
    refine ⟨iff_of_true ?_ (.inl hshort), fun _ => cstr_append_nul hnul _⟩
    exact List.mem_append_right _ List.mem_cons_self
  · rw [show 99 - name.length = 0 by omega, List.replicate_zero, List.append_nil]
    constructor
    · rw [List.mem_append, or_iff_right hnul, or_iff_right hshort, List.mem_singleton, eq_comm]
    · intro hmem
      have hlast0 : (0 : Byte) = slot.funcName[99] := by simpa [hnul] using hmem
      rw [← hlast0]
      exact cstr_append_nul hnul []

/-! ## The menu -/

/-- An element of the array that `calc_menu` can show and call. -/
def Callable (slot : PluginData) : Prop := slot.pFunc.isSome ∧ 0 ∈ slot.funcName

theorem menuNames_isSome (h : ∀ i < arrSize, ∃ slot, arr[i]? = some slot ∧ Callable slot) :
    ∃ names, menuNames arr arrSize = some names := by
  refine ⟨_, mapM_eq_some_map (g := fun i => (arr[i]?.bind nameText).getD []) fun i hi => ?_⟩
  obtain ⟨slot, hslot, -, hnul⟩ := h i (List.mem_range.1 hi)
  simp [hslot, nameText, hnul]

theorem calcMenu_isSome (h : ∀ i < arrSize, ∃ slot, arr[i]? = some slot ∧ Callable slot) :
    ∀ inputs, (calcMenu arr arrSize inputs).isSome
  | [] => by
    obtain ⟨names, hnames⟩ := menuNames_isSome h
    rw [calcMenu, hnames]
    rfl
  | (input1, a, b) :: inputs => by
    obtain ⟨names, hnames⟩ := menuNames_isSome h
    obtain ⟨rounds, hrounds⟩ := Option.isSome_iff_exists.1 (calcMenu_isSome h inputs)
    simp only [calcMenu, hnames, hrounds, Option.bind_eq_bind, Option.bind_some]
    split
    next => rfl
    next hselected =>
      obtain ⟨slot, hslot, hfunc, hnul⟩ := h input1.toNat (by omega)
      obtain ⟨func, hfunc⟩ := Option.isSome_iff_exists.1 hfunc
      simp [hslot, hfunc, nameText, hnul]

/-! ## What is kept -/

variable (dlopen)

/-- The first `arr_size` plugins that pass all three steps are loaded, with their names cut to 99 characters, and can
be called. -/
structure KeepsUsable (arrSize : Nat) (entries : List CString) (count : Nat) (arr' : List PluginData) : Prop where
  count_eq : count = ((entries.filterMap (usable dlopen)).take arrSize).length
  stored : ∀ (k : Nat) (name : CString) (func : BinaryFunc),
    ((entries.filterMap (usable dlopen)).take arrSize)[k]? = some (name, func) →
      ∃ slot : PluginData, arr'[k]? = some slot ∧ slot.pFunc = some func ∧ 0 ∈ slot.funcName ∧
        cstr slot.funcName = name.take 99
  calls : ∀ inputs, (calcMenu arr' count inputs).isSome

/-- Of the first `arr_size` plugins that can be opened and have a name each has its function, and none has a name so
long that `strncpy` writes no NUL, unless the memory holds one. -/
def Complete (arr : List PluginData) (arrSize : Nat) (entries : List CString) : Prop :=
  ∀ (k : Nat) (p : Plugin × CString), ((entries.filterMap (named dlopen)).take arrSize)[k]? = some p →
    (p.1.function p.2).isSome ∧ (p.2.length < 99 ∨ ∃ slot : PluginData, arr[k]? = some slot ∧ slot.funcName[99]? = some 0)

variable {dlopen}

theorem take_filterMap {α β : Type} {g : α → Option β} : ∀ (l : List α) (n : Nat), (∀ x ∈ l.take n, (g x).isSome) →
    ((l.filterMap g).take n).map some = (l.take n).map g
  | [], _, _ => by simp
  | _ :: _, 0, _ => by simp
  | x :: l, n + 1, h => by
    obtain ⟨y, hy⟩ := Option.isSome_iff_exists.1 (h x List.mem_cons_self)
    have ih := take_filterMap l n fun x' hx' => h x' (List.mem_cons_of_mem x hx')
    rw [List.filterMap_cons_some hy, List.take_succ_cons, List.take_succ_cons, List.map_cons, List.map_cons, ih, hy]

/-- Where every function is found, the plugins loaded are the usable ones. -/
theorem usable_eq {entries : List CString}
    (h : ∀ p ∈ (entries.filterMap (named dlopen)).take arrSize, (p.1.function p.2).isSome) :
    ((entries.filterMap (usable dlopen)).take arrSize).map some =
      ((entries.filterMap (named dlopen)).take arrSize).map fun p => (p.1.function p.2).map fun func => (p.2, func) := by
  have hbind : entries.filterMap (usable dlopen) =
      (entries.filterMap (named dlopen)).filterMap fun p => (p.1.function p.2).map fun func => (p.2, func) := by
    rw [List.filterMap_filterMap]
    rfl
  rw [hbind]
  exact take_filterMap _ _ fun p hp => by rw [Option.isSome_map]; exact h p hp

theorem mem_named {entries : List CString} {p : Plugin × CString} (hp : p ∈ entries.filterMap (named dlopen)) :
    0 ∉ p.2 := by
  obtain ⟨dName, -, hp⟩ := List.mem_filterMap.1 hp
  obtain ⟨handle, -, hp⟩ := Option.bind_eq_some_iff.1 hp
  obtain ⟨name, hname, rfl⟩ := Option.map_eq_some_iff.1 hp
  exact handle.nul_free name hname

/-- The slots hold the first `arr_size` plugins that can be opened and have a name. -/
def Loaded (dlopen : CString → Option Plugin) (arr : List PluginData) (arrSize : Nat) (entries : List CString)
    (arr' : List PluginData) : Prop :=
  ∀ (k : Nat) (p : Plugin × CString), ((entries.filterMap (named dlopen)).take arrSize)[k]? = some p →
    ∃ slot, arr[k]? = some slot ∧ arr'[k]? = some (slot.store p.2 (p.1.function p.2))

section
variable {entries : List CString} {arr' : List PluginData} {k : Nat} {p : Plugin × CString}

theorem nul_not_mem_name (hk : ((entries.filterMap (named dlopen)).take arrSize)[k]? = some p) : 0 ∉ p.2 :=
  mem_named (List.mem_of_mem_take (List.mem_of_getElem? hk))

theorem KeepsUsable.complete {count : Nat} (h : KeepsUsable dlopen arrSize entries count arr')
    (hcount : count = ((entries.filterMap (named dlopen)).take arrSize).length)
    (hstored : Loaded dlopen arr arrSize entries arr') : Complete dlopen arr arrSize entries := by
  intro k p hk
  obtain ⟨slot, hslot, hslot'⟩ := hstored k p hk
  -- the count is that of the usable plugins, so one of them is in the slot
  have hlt : k < ((entries.filterMap (usable dlopen)).take arrSize).length :=
    h.count_eq ▸ hcount ▸ (List.getElem?_eq_some_iff.1 hk).1
  obtain ⟨slot', hkept, hfunc, hnul, -⟩ := h.stored k _ _ (List.getElem?_eq_getElem hlt)
  obtain rfl : slot.store p.2 (p.1.function p.2) = slot' := Option.some.inj (hslot'.symm.trans hkept)
  refine ⟨?_, ((nul_mem_store (nul_not_mem_name hk) _).1.1 hnul).imp_right fun h0 => ⟨slot, hslot, h0⟩⟩
  rw [show p.1.function p.2 = _ from hfunc]
  rfl

theorem Complete.nul_mem (h : Complete dlopen arr arrSize entries) {slot : PluginData}
    (hk : ((entries.filterMap (named dlopen)).take arrSize)[k]? = some p) (hslot : arr[k]? = some slot) :
    0 ∈ (slot.store p.2 (p.1.function p.2)).funcName := by
  refine (nul_mem_store (nul_not_mem_name hk) _).1.2 ((h k p hk).2.imp_right fun ⟨slot', hslot', h0⟩ => ?_)
  obtain rfl : slot = slot' := Option.some.inj (hslot.symm.trans hslot')
  exact h0

theorem Complete.keepsUsable (h : Complete dlopen arr arrSize entries) (hstored : Loaded dlopen arr arrSize entries arr') :
    KeepsUsable dlopen arrSize entries ((entries.filterMap (named dlopen)).take arrSize).length arr' := by
  have husable := @usable_eq dlopen arrSize entries fun p hp => by
    obtain ⟨k, hk⟩ := List.getElem?_of_mem hp
    exact (h k p hk).1
  constructor
  case count_eq =>
    have hlength := congrArg List.length husable
    rw [List.length_map, List.length_map] at hlength
    exact hlength.symm
  case stored =>
    intro k name func hk
    have hget := congrArg (·[k]?) husable
    simp only [List.getElem?_map, hk, Option.map_some] at hget
    obtain ⟨p, hp, hfunc⟩ := Option.map_eq_some_iff.1 hget.symm
    obtain ⟨func', hfunc', heq⟩ := Option.map_eq_some_iff.1 hfunc
    obtain ⟨rfl, rfl⟩ := Prod.mk.inj heq
    obtain ⟨slot, hslot, hslot'⟩ := hstored k p hp
    have hmem := h.nul_mem hp hslot
    exact ⟨_, hslot', hfunc', hmem, (nul_mem_store (nul_not_mem_name hp) _).2 hmem⟩
  case calls =>
    refine calcMenu_isSome fun i hi => ?_
    have hp := List.getElem?_eq_getElem hi
    obtain ⟨slot, hslot, hslot'⟩ := hstored i _ hp
    exact ⟨_, hslot', (h i _ hp).1, h.nul_mem hp hslot⟩

end

/-- **`load_funcs` keeps exactly the usable plugins, and `calc_menu` calls no missing function, just when the plugins
it loads are `Complete`.** -/
theorem load_funcs_iff (dlopen : CString → Option Plugin) (arr : List PluginData) (arrSize : Nat)
    (entries : List CString) (hsize : 1 ≤ arrSize) (hlen : arrSize ≤ arr.length) :
    ∃ count arr', loadFuncs dlopen arr arrSize entries = some (count, arr') ∧
      (KeepsUsable dlopen arrSize entries count arr' ↔ Complete dlopen arr arrSize entries) := by
  obtain ⟨arr', hloop, -, hstored⟩ := @loadLoop_eq dlopen arrSize entries 0 arr (by omega) hlen
  simp only [Nat.zero_add, Nat.sub_zero] at hloop hstored
  exact ⟨_, arr', hloop, fun h => h.complete rfl hstored, fun h => h.keepsUsable hstored⟩

/-- A slot whose memory holds zeros. -/
def zeroSlot : PluginData where
  pFunc := none
  funcName := List.replicate 100 0
  length := List.length_replicate

def addName : CString := str ['a', 'd', 'd']

/-- The plugin `add`, with its function or without it. -/
def addPlugin (found : Bool) : Plugin where
  funcName := some addName
  function name := if found ∧ name = addName then some fun a b => a + b else none
  nul_free := by
    intro name hname
    obtain rfl := Option.some.inj hname
    decide

theorem load_funcs_iff_add :
    ∃ count arr', loadFuncs (fun _ => some (addPlugin true)) [zeroSlot] 1 [str ['a']] = some (count, arr') ∧
      (KeepsUsable (fun _ => some (addPlugin true)) 1 [str ['a']] count arr' ↔
        Complete (fun _ => some (addPlugin true)) [zeroSlot] 1 [str ['a']]) :=
  load_funcs_iff (fun _ => some (addPlugin true)) [zeroSlot] 1 [str ['a']] (by decide) (by decide)

/-- A plugin whose function is missing is loaded, and the menu calls it. -/
theorem missing_function_loaded :
    ∃ count arr', loadFuncs (fun _ => some (addPlugin false)) [zeroSlot] 1 [str ['a']] = some (count, arr') ∧
      ¬ KeepsUsable (fun _ => some (addPlugin false)) 1 [str ['a']] count arr' ∧
      calcMenu arr' count [(0, 1, 2)] = none := by
  refine ⟨1, [zeroSlot.store addName none], rfl, fun h => ?_, rfl⟩
  exact absurd h.count_eq (by decide)

end Plugins
end Eltex
