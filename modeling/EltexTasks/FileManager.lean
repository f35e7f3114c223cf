import Mathlib.Data.List.Sort
import EltexTasks.Run
import EltexTasks.CString
/-!
# FileManager — the two-window file manager

file_manager/source/file_edit.c: `get_namelist`, `print_text`, `switch_directory`, `scroll_if_necessary`,
`switch_active_window` and `file_manager_loop`.  `δ` is the type of the directories, a path that `getcwd` returned is
the directory it names.
-/
namespace Eltex
namespace FileManager

/-- A directory tree: the entries of a directory other than `.` and `..`, and what `chdir` finds under their names and
under `..`. -/
structure FileSystem (δ : Type) where
  entries : δ → List CString
  child : δ → CString → Option δ
  parent : δ → Option δ

def dot : CString := str ['.']

def dotdot : CString := str ['.', '.']

/-- `alphasort` in the C locale: `strcmp` is not positive. -/
def alphasortLe : CString → CString → Bool
  | [], _ => true
  | _ :: _, [] => false
  | a :: as, b :: bs => a < b || (a == b && alphasortLe as bs)

variable {δ : Type}

/-- `scandir(".", .., NULL, alphasort)` in the directory `d`. -/
def scandir (fs : FileSystem δ) (d : δ) : List CString :=
  (dot :: dotdot :: fs.entries d).insertionSort fun a b => alphasortLe a b = true

/-- `chdir` to `./name` from the directory `d`. -/
def chdir (fs : FileSystem δ) (d : δ) (name : CString) : Option δ :=
  if name = dot then some d else if name = dotdot then fs.parent d else fs.child d name

structure FileManagerInfo (δ : Type) where
  topPadding : Int
  bottomPadding : Int
  selection : Int
  lineFirst : Int
  lineLast : Int
  activeWindow : Int
  screenHeight : Int
  screenWidth : Int
  n : Int
  memorizedPath : Option δ
deriving DecidableEq, Repr

/-- The state of `file_manager_loop`: `cwd` is the current directory of the process, `printed` records the argument of
each call of `print_text`. -/
structure Manager (δ : Type) where
  info : FileManagerInfo δ
  namelist : List CString
  cwd : δ
  printed : List (FileManagerInfo δ)
  quit : Bool
deriving DecidableEq, Repr

/-- The integers from `a` up to and without `b`. -/
def intRange (a b : Int) : List Int := (List.range (b - a).toNat).map fun k : Nat => a + k

/-- The lines `print_text` writes: the row it moves to and the index into `namelist` it reads. -/
def printLines (info : FileManagerInfo δ) : List (Int × Int) :=
  (intRange info.lineFirst info.selection ++ [info.selection] ++ intRange (info.selection + 1) (info.lineLast + 1)).map
    fun i => (i - info.lineFirst + info.topPadding, i)

def printText (s : Manager δ) : Manager δ := { s with printed := s.printed ++ [s.info] }

def getNamelist (fs : FileSystem δ) (s : Manager δ) : Manager δ :=
  let namelist := scandir fs s.cwd
  let n : Int := namelist.length
  { s with
    namelist := namelist
    info := { s.info with
      n := n
      selection := 1
      lineLast :=
        if n > s.info.screenHeight then s.info.screenHeight - s.info.bottomPadding - s.info.topPadding - 1 else n - 1 } }

/-- `switch_directory`; `none` where it reads past the end of `namelist`. -/
def switchDirectory (fs : FileSystem δ) (s : Manager δ) : Option (Manager δ) :=
  if s.info.selection < 0 then none
  else
    (s.namelist[s.info.selection.toNat]?).map fun name =>
      match chdir fs s.cwd name with
      | none => s
      | some d => printText (getNamelist fs { s with cwd := d })

def scrollIfNecessary (s : Manager δ) : Manager δ :=
  let dif := s.info.lineLast - s.info.lineFirst
  if s.info.selection < s.info.lineFirst then
    printText { s with info := { s.info with lineFirst := s.info.selection, lineLast := s.info.selection + dif } }
  else if s.info.selection > s.info.lineLast then
    printText { s with info := { s.info with lineLast := s.info.selection, lineFirst := s.info.selection - dif } }
  else s

/-- `switch_active_window` up to its call of `switch_directory`. -/
def loadOtherWindow (fs : FileSystem δ) (s : Manager δ) : Manager δ :=
  let s := getNamelist fs { s with
    cwd := s.info.memorizedPath.getD s.cwd
    info := { s.info with activeWindow := (s.info.activeWindow + 1) % 2 } }
  { s with info := { s.info with selection := 0 } }

def switchActiveWindow (fs : FileSystem δ) (s : Manager δ) : Option (Manager δ) :=
  (switchDirectory fs (loadOtherWindow fs s)).map fun t =>
    { t with info := { t.info with memorizedPath := some s.cwd } }

/-! ## The keys -/

def keyDown : Int := 258

def keyUp : Int := 259

def keyEnter : Int := 343

def key (c : Char) : Int := c.toNat

/-- The selection moved by one line. -/
def moveSelection (s : Manager δ) (lines : Int) : Manager δ :=
  printText (scrollIfNecessary { s with info := { s.info with selection := s.info.selection + lines } })

/-- A round of the loop of `file_manager_loop` with the key `ch`; after `q` no key is read. -/
def step (fs : FileSystem δ) (s : Manager δ) (ch : Int) : Option (Manager δ) :=
  if s.quit then some s
  else if ch = key 'q' then some { s with quit := true }
  else if ch = keyDown ∨ ch = key 'j' then
    some (if s.info.selection < s.info.n - 1 then moveSelection s 1 else s)
  else if ch = keyUp ∨ ch = key 'k' then
    some (if s.info.selection > 0 then moveSelection s (-1) else s)
  else if ch = keyEnter ∨ ch = key 'e' then switchDirectory fs s
  else if ch = key '\t' ∨ ch = key 'w' then switchActiveWindow fs s
  else some s

/-- The first call of `print_text` in `file_manager_loop`, with the `info` that `file_manager` passes it. -/
def opened (fs : FileSystem δ) (cwd : δ) (screenHeight screenWidth : Int) : Manager δ :=
  let info : FileManagerInfo δ :=
    { topPadding := 1, bottomPadding := 1, selection := 0, lineFirst := 0, lineLast := 0, activeWindow := 0
      screenHeight := screenHeight, screenWidth := screenWidth, n := 0, memorizedPath := none }
  printText (getNamelist fs { info := info, namelist := [], cwd := cwd, printed := [], quit := false })

/-- `file_manager_loop` before it reads a key. -/
def start (fs : FileSystem δ) (cwd : δ) (screenHeight screenWidth : Int) : Option (Manager δ) :=
  (switchActiveWindow fs (opened fs cwd screenHeight screenWidth)).bind (switchActiveWindow fs)

/-! ## The keys told apart -/

inductive Key where
  | quit
  | down
  | up
  | enter
  | window
  | other

/-- What the loop takes the key `ch` for. -/
def keyOf (ch : Int) : Key :=
  if ch = key 'q' then .quit
  else if ch = keyDown ∨ ch = key 'j' then .down
  else if ch = keyUp ∨ ch = key 'k' then .up
  else if ch = keyEnter ∨ ch = key 'e' then .enter
  else if ch = key '\t' ∨ ch = key 'w' then .window
  else .other

theorem step_of_quit {fs : FileSystem δ} {s : Manager δ} (h : s.quit = true) (ch : Int) : step fs s ch = some s :=
  if_pos h

theorem step_eq {fs : FileSystem δ} {s : Manager δ} (h : s.quit = false) (ch : Int) : step fs s ch =
    match keyOf ch with
    | .quit => some { s with quit := true }
    | .down => some (if s.info.selection < s.info.n - 1 then moveSelection s 1 else s)
    | .up => some (if s.info.selection > 0 then moveSelection s (-1) else s)
    | .enter => switchDirectory fs s
    | .window => switchActiveWindow fs s
    | .other => some s := by
  unfold step keyOf
  rw [h, if_neg Bool.false_ne_true]
  split_ifs <;> rfl

/-- **What a key does**: nothing once the loop has ended; it ends the loop, moves the selection where there is a line to
move to, enters the selected directory or switches the window. -/
theorem step_cases {fs : FileSystem δ} {s t : Manager δ} {ch : Int} (hs : step fs s ch = some t) :
    (s.quit = true ∧ t = s) ∨ (s.quit = false ∧
    ((keyOf ch = .quit ∧ t = { s with quit := true }) ∨
     (keyOf ch = .down ∧ s.info.selection < s.info.n - 1 ∧ t = moveSelection s 1) ∨
     (keyOf ch = .down ∧ ¬ s.info.selection < s.info.n - 1 ∧ t = s) ∨
     (keyOf ch = .up ∧ s.info.selection > 0 ∧ t = moveSelection s (-1)) ∨
     (keyOf ch = .up ∧ ¬ s.info.selection > 0 ∧ t = s) ∨
     (keyOf ch = .enter ∧ switchDirectory fs s = some t) ∨
     (keyOf ch = .window ∧ switchActiveWindow fs s = some t) ∨
     (keyOf ch = .other ∧ t = s))) := by
  cases hquit : s.quit with
  | true =>
    rw [step_of_quit hquit] at hs
    exact .inl ⟨rfl, (Option.some.inj hs).symm⟩
  | false =>
    refine .inr ⟨rfl, ?_⟩
    rw [step_eq hquit] at hs
    cases hk : keyOf ch with
    | quit =>
      rw [hk] at hs
      exact .inl ⟨rfl, (Option.some.inj hs).symm⟩
    | down =>
      rw [hk] at hs
      by_cases hend : s.info.selection < s.info.n - 1
      · simp only [if_pos hend] at hs
        exact .inr (.inl ⟨rfl, hend, (Option.some.inj hs).symm⟩)
      · simp only [if_neg hend] at hs
        exact .inr (.inr (.inl ⟨rfl, hend, (Option.some.inj hs).symm⟩))
    | up =>
      rw [hk] at hs
      by_cases hend : s.info.selection > 0
      · simp only [if_pos hend] at hs
        exact .inr (.inr (.inr (.inl ⟨rfl, hend, (Option.some.inj hs).symm⟩)))
      · simp only [if_neg hend] at hs
        exact .inr (.inr (.inr (.inr (.inl ⟨rfl, hend, (Option.some.inj hs).symm⟩))))
    | enter =>
      rw [hk] at hs
      exact .inr (.inr (.inr (.inr (.inr (.inl ⟨rfl, hs⟩)))))
    | window =>
      rw [hk] at hs
      exact .inr (.inr (.inr (.inr (.inr (.inr (.inl ⟨rfl, hs⟩))))))
    | other =>
      rw [hk] at hs
      exact .inr (.inr (.inr (.inr (.inr (.inr (.inr ⟨rfl, (Option.some.inj hs).symm⟩))))))

/-- No key has two meanings. -/
theorem keyOf_eq_window {ch : Int} : keyOf ch = .window ↔ ch = key '\t' ∨ ch = key 'w' := by
  constructor
  · unfold keyOf
    split_ifs with _ _ _ _ h <;> intro hk
    all_goals first
      | exact h
      | cases hk
  · rintro (rfl | rfl) <;> rfl

theorem keyOf_eq_enter {ch : Int} : keyOf ch = .enter ↔ ch = keyEnter ∨ ch = key 'e' := by
  constructor
  · unfold keyOf
    split_ifs with _ _ _ h <;> intro hk
    all_goals first
      | exact h
      | cases hk
  · rintro (rfl | rfl) <;> rfl

/-! ## Every key is processed -/

/-- The selection is an entry of `namelist`. -/
structure Selected (s : Manager δ) : Prop where
  n : s.info.n = s.namelist.length
  first : 0 ≤ s.info.selection
  last : s.info.selection < s.info.n

variable {fs : FileSystem δ} {s : Manager δ}

theorem length_scandir (fs : FileSystem δ) (d : δ) : (scandir fs d).length = (fs.entries d).length + 2 := by
  rw [scandir, List.length_insertionSort]
  rfl

theorem selected_getNamelist (fs : FileSystem δ) (s : Manager δ) : Selected (getNamelist fs s) where
  n := rfl
  first := by simp only [getNamelist]; omega
  last := by
    simp only [getNamelist, length_scandir]
    omega

theorem selected_loadOtherWindow (fs : FileSystem δ) (s : Manager δ) : Selected (loadOtherWindow fs s) where
  n := rfl
  first := Int.le_refl 0
  last := by
    simp only [loadOtherWindow, getNamelist, length_scandir]
    omega

/-- The directory `switch_directory` changes to. -/
def entered (fs : FileSystem δ) (s : Manager δ) : Option δ :=
  (s.namelist[s.info.selection.toNat]?).bind (chdir fs s.cwd)

/-- `switch_directory` where it reads an entry. -/
def switched (fs : FileSystem δ) (s : Manager δ) : Manager δ :=
  match entered fs s with
  | none => s
  | some d => printText (getNamelist fs { s with cwd := d })

theorem eq_switched {t : Manager δ} (hs : switchDirectory fs s = some t) : t = switched fs s := by
  unfold switchDirectory at hs
  split at hs
  · cases hs
  · obtain ⟨name, hname, rfl⟩ := Option.map_eq_some_iff.1 hs
    rw [switched, entered, hname]
    rfl

theorem switchDirectory_eq (fs : FileSystem δ) (h : Selected s) : switchDirectory fs s = some (switched fs s) := by
  have hlt : s.info.selection.toNat < s.namelist.length := by
    have hfirst := h.first
    have hlast := h.last
    rw [h.n] at hlast
    omega
  have hfirst := h.first
  rw [switchDirectory, if_neg (by omega), switched, entered, List.getElem?_eq_getElem hlt]
  rfl

theorem Selected.switchDirectory (h : Selected s) (fs : FileSystem δ) :
    ∃ t, switchDirectory fs s = some t ∧ Selected t := by
  rw [switchDirectory_eq fs h]
  refine ⟨_, rfl, ?_⟩
  unfold switched
  cases entered fs s with
  | none => exact h
  | some d =>
    have hload := selected_getNamelist fs { s with cwd := d }
    exact ⟨hload.n, hload.first, hload.last⟩

theorem Selected.switchActiveWindow (fs : FileSystem δ) (s : Manager δ) :
    ∃ t, switchActiveWindow fs s = some t ∧ Selected t := by
  obtain ⟨t, ht, hsel⟩ := (selected_loadOtherWindow fs s).switchDirectory fs
  rw [FileManager.switchActiveWindow, ht]
  exact ⟨_, rfl, hsel.n, hsel.first, hsel.last⟩

/-- Besides the selection a move changes the lines shown, and what was printed. -/
theorem moveSelection_frame (s : Manager δ) (lines : Int) : ∃ lineFirst lineLast printed, moveSelection s lines =
    { s with
      info := { s.info with selection := s.info.selection + lines, lineFirst := lineFirst, lineLast := lineLast }
      printed := printed } := by
  unfold moveSelection scrollIfNecessary printText
  simp only
  split
  · exact ⟨_, _, _, rfl⟩
  · split
    · exact ⟨_, _, _, rfl⟩
    · exact ⟨_, _, _, rfl⟩

theorem Selected.moveSelection (h : Selected s) {lines : Int} (hfirst : 0 ≤ s.info.selection + lines)
    (hlast : s.info.selection + lines < s.info.n) : Selected (moveSelection s lines) := by
  obtain ⟨_, _, _, hmove⟩ := moveSelection_frame s lines
  rw [hmove]
  exact ⟨h.n, hfirst, hlast⟩

theorem Selected.step (h : Selected s) (fs : FileSystem δ) (ch : Int) : ∃ t, step fs s ch = some t ∧ Selected t := by
  have hfirst := h.first
  have hlast := h.last
  cases hquit : s.quit with
  | true => exact ⟨s, step_of_quit hquit ch, h⟩
  | false =>
    rw [step_eq hquit]
    cases keyOf ch with
    | quit => exact ⟨_, rfl, h.n, h.first, h.last⟩
    | down =>
      refine ⟨_, rfl, ?_⟩
      by_cases hend : s.info.selection < s.info.n - 1
      · rw [if_pos hend]
        exact h.moveSelection (by omega) (by omega)
      · rw [if_neg hend]
        exact h
    | up =>
      refine ⟨_, rfl, ?_⟩
      by_cases hend : s.info.selection > 0
      · rw [if_pos hend]
        exact h.moveSelection (by omega) (by omega)
      · rw [if_neg hend]
        exact h
    | enter => exact h.switchDirectory fs
    | window => exact Selected.switchActiveWindow fs s
    | other => exact ⟨s, rfl, h⟩

theorem start_selected (fs : FileSystem δ) (cwd : δ) (screenHeight screenWidth : Int) :
    ∃ s, start fs cwd screenHeight screenWidth = some s ∧ Selected s := by
  obtain ⟨t, ht, -⟩ := Selected.switchActiveWindow fs (opened fs cwd screenHeight screenWidth)
  rw [start, ht]
  exact Selected.switchActiveWindow fs t

end FileManager
end Eltex
