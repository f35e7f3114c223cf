import EltexTasks.FileManager
/-!
# Panes — a directory for each window

What the file manager is for: two windows, each with a directory of its own, of which the keys change the active one's
(`Panes`).  The program keeps the two directories as the current directory of the process and `memorized_path`
(`Refines`), as long as the first entry of a directory switched to is not a directory that can be entered.
-/
namespace Eltex
namespace FileManager

variable {δ : Type}

/-- Two windows, each in a directory. -/
structure Panes (δ : Type) where
  dir : Fin 2 → δ
  active : Fin 2

/-- Enter pressed on a directory. -/
def Panes.enter (p : Panes δ) (d : δ) : Panes δ := { p with dir := Function.update p.dir p.active d }

/-- The window-switch key. -/
def Panes.switch (p : Panes δ) : Panes δ := { p with active := p.active + 1 }

/-- What the key `ch` means for the windows when the entry `line` of the active one is selected. -/
def paneStep (fs : FileSystem δ) (p : Panes δ) (line : Nat) (ch : Int) : Panes δ :=
  if ch = keyEnter ∨ ch = key 'e' then
    match ((scandir fs (p.dir p.active))[line]?).bind (chdir fs (p.dir p.active)) with
    | some d => p.enter d
    | none => p
  else if ch = key '\t' ∨ ch = key 'w' then p.switch
  else p

/-- The program and the windows it is to show, one key on. -/
def bothStep (fs : FileSystem δ) (s : Manager δ × Panes δ) (ch : Int) : Option (Manager δ × Panes δ) :=
  (step fs s.1 ch).map fun t =>
    (t, if s.1.quit then s.2 else paneStep fs s.2 s.1.info.selection.toNat ch)

/-- The current directory is the active window's and `memorized_path` the other one's. -/
structure Refines (s : Manager δ × Panes δ) : Prop where
  active : s.1.info.activeWindow = (s.2.active : Nat)
  cwd : s.1.cwd = s.2.dir s.2.active
  memorized : s.1.info.memorizedPath = some (s.2.dir (s.2.active + 1))

/-- The window switch stays in the directory `d` it changed to. -/
def StaysIn (fs : FileSystem δ) (d : δ) : Prop := ∀ name, (scandir fs d)[0]? = some name → ∀ e, chdir fs d name = some e → e = d

/-- The keys that keep each window in its directory. -/
def keepsPanes (fs : FileSystem δ) (s : Manager δ × Panes δ) (ch : Int) : Prop :=
  s.1.quit = false → ch = key '\t' ∨ ch = key 'w' → StaysIn fs (s.2.dir (s.2.active + 1))

variable {fs : FileSystem δ} {s t : Manager δ × Panes δ}

/-- Where the window switch ends that changes to `d`. -/
def landing (fs : FileSystem δ) (d : δ) : δ := (((scandir fs d)[0]?).bind (chdir fs d)).getD d

theorem staysIn_iff {d : δ} : StaysIn fs d ↔ landing fs d = d := by
  unfold StaysIn landing
  constructor
  · intro h
    cases hname : (scandir fs d)[0]? with
    | none => rfl
    | some name =>
      rw [Option.bind_some]
      cases hd : chdir fs d name with
      | none => rfl
      | some e => exact h name hname e hd
  · intro h name hname e he
    rw [hname, Option.bind_some, he] at h
    exact h

theorem switchActiveWindow_fields {m u : Manager δ} (hs : switchActiveWindow fs m = some u) :
    u.cwd = landing fs (m.info.memorizedPath.getD m.cwd) ∧ u.info.memorizedPath = some m.cwd ∧
      u.info.activeWindow = (m.info.activeWindow + 1) % 2 := by
  obtain ⟨v, hv, rfl⟩ := Option.map_eq_some_iff.1 hs
  obtain rfl := eq_switched hv
  refine ⟨?_, rfl, ?_⟩
  · have hland : landing fs (m.info.memorizedPath.getD m.cwd) =
        (entered fs (loadOtherWindow fs m)).getD (m.info.memorizedPath.getD m.cwd) := rfl
    rw [hland]
    unfold switched
    cases entered fs (loadOtherWindow fs m) <;> rfl
  · unfold switched
    cases entered fs (loadOtherWindow fs m) <;> rfl

theorem switchDirectory_fields {m u : Manager δ} (hs : switchDirectory fs m = some u) :
    u.cwd = (entered fs m).getD m.cwd ∧ u.info.memorizedPath = m.info.memorizedPath ∧
      u.info.activeWindow = m.info.activeWindow := by
  obtain rfl := eq_switched hs
  unfold switched
  cases entered fs m <;> exact ⟨rfl, rfl, rfl⟩

theorem moveSelection_fields (m : Manager δ) (lines : Int) : (moveSelection m lines).cwd = m.cwd ∧
    (moveSelection m lines).info.memorizedPath = m.info.memorizedPath ∧
      (moveSelection m lines).info.activeWindow = m.info.activeWindow := by
  obtain ⟨_, _, _, hmove⟩ := moveSelection_frame m lines
  rw [hmove]
  exact ⟨rfl, rfl, rfl⟩

/-! ## The keys -/

/-- The names shown are those of the current directory. -/
def Listed (fs : FileSystem δ) (m : Manager δ) : Prop := m.namelist = scandir fs m.cwd

theorem Listed.switched {m : Manager δ} (h : Listed fs m) : Listed fs (switched fs m) := by
  unfold FileManager.switched
  cases entered fs m with
  | none => exact h
  | some d => rfl

theorem Listed.switchActiveWindow {m u : Manager δ} (hs : switchActiveWindow fs m = some u) : Listed fs u := by
  obtain ⟨v, hv, rfl⟩ := Option.map_eq_some_iff.1 hs
  obtain rfl := eq_switched hv
  have hother : Listed fs (loadOtherWindow fs m) := rfl
  exact hother.switched

theorem Listed.moveSelection {m : Manager δ} (h : Listed fs m) (lines : Int) : Listed fs (moveSelection m lines) := by
  obtain ⟨_, _, _, hmove⟩ := moveSelection_frame m lines
  rw [hmove]
  exact h

theorem Listed.step {m u : Manager δ} {ch : Int} (h : Listed fs m) (hs : step fs m ch = some u) : Listed fs u := by
  obtain ⟨-, rfl⟩ | ⟨-, ⟨-, rfl⟩ | ⟨-, -, rfl⟩ | ⟨-, -, rfl⟩ | ⟨-, -, rfl⟩ | ⟨-, -, rfl⟩ | ⟨-, henter⟩ | ⟨-, hswitch⟩ |
    ⟨-, rfl⟩⟩ := step_cases hs
  · exact h
  · exact h
  · exact h.moveSelection 1
  · exact h
  · exact h.moveSelection (-1)
  · exact h
  · obtain rfl := eq_switched henter
    exact h.switched
  · exact Listed.switchActiveWindow hswitch
  · exact h

/-- Fields the windows do not depend on changed. -/
theorem Refines.congr {m u : Manager δ} {p : Panes δ} (h : Refines (m, p)) (hu : u.cwd = m.cwd ∧
    u.info.memorizedPath = m.info.memorizedPath ∧ u.info.activeWindow = m.info.activeWindow) : Refines (u, p) :=
  ⟨hu.2.2.trans h.active, hu.1.trans h.cwd, hu.2.1.trans h.memorized⟩

theorem add_one_add_one : ∀ i : Fin 2, i + 1 + 1 = i := by decide

theorem add_one_ne : ∀ i : Fin 2, i + 1 ≠ i := by decide

theorem val_add_one : ∀ i : Fin 2, (((i + 1 : Fin 2) : Nat) : Int) = ((i : Nat) + 1) % 2 := by decide

theorem refines_switch_iff {m u : Manager δ} {p : Panes δ} (h : Refines (m, p))
    (hs : switchActiveWindow fs m = some u) : Refines (u, p.switch) ↔ StaysIn fs (p.dir (p.active + 1)) := by
  obtain ⟨hcwd, hmemorized, hactive⟩ := switchActiveWindow_fields hs
  have hm := h.memorized
  simp only at hm
  rw [hm, Option.getD_some] at hcwd
  rw [staysIn_iff]
  constructor
  · intro hr
    exact hcwd.symm.trans hr.cwd
  · intro hland
    constructor
    · rw [hactive, h.active]
      exact (val_add_one p.active).symm
    · exact hcwd.trans hland
    · have hback : p.switch.active + 1 = p.active := add_one_add_one p.active
      rw [hback, hmemorized]
      exact congrArg some h.cwd

theorem refines_enter {m u : Manager δ} {p : Panes δ} (h : Refines (m, p)) (hlisted : Listed fs m)
    (hs : switchDirectory fs m = some u) :
    Refines (u, match ((scandir fs (p.dir p.active))[m.info.selection.toNat]?).bind (chdir fs (p.dir p.active)) with
      | some d => p.enter d
      | none => p) := by
  obtain ⟨hcwd, hmemorized, hactive⟩ := switchDirectory_fields hs
  have hentered : ((scandir fs (p.dir p.active))[m.info.selection.toNat]?).bind (chdir fs (p.dir p.active)) =
      entered fs m := by
    rw [entered, hlisted, show m.cwd = p.dir p.active from h.cwd]
  rw [hentered]
  cases hd : entered fs m with
  | none =>
    rw [hd] at hcwd
    exact h.congr ⟨hcwd, hmemorized, hactive⟩
  | some d =>
    rw [hd] at hcwd
    change Refines (u, p.enter d)
    constructor
    · exact hactive.trans h.active
    · exact hcwd.trans (Function.update_self p.active d p.dir).symm
    · have hother : (p.enter d).dir ((p.enter d).active + 1) = p.dir (p.active + 1) := by
        change Function.update p.dir p.active d (p.active + 1) = p.dir (p.active + 1)
        rw [Function.update_of_ne (add_one_ne p.active)]
      rw [hmemorized, h.memorized]
      exact congrArg some hother.symm

theorem paneStep_eq (p : Panes δ) (line : Nat) (ch : Int) : paneStep fs p line ch =
    match keyOf ch with
    | .enter =>
      match ((scandir fs (p.dir p.active))[line]?).bind (chdir fs (p.dir p.active)) with
      | some d => p.enter d
      | none => p
    | .window => p.switch
    | _ => p := by
  by_cases henter : keyOf ch = .enter
  · rw [paneStep, if_pos (keyOf_eq_enter.1 henter), henter]
  by_cases hwindow : keyOf ch = .window
  · rw [paneStep, if_neg fun h => henter (keyOf_eq_enter.2 h), if_pos (keyOf_eq_window.1 hwindow), hwindow]
  · rw [paneStep, if_neg fun h => henter (keyOf_eq_enter.2 h), if_neg fun h => hwindow (keyOf_eq_window.2 h)]
    cases hk : keyOf ch with
    | enter => exact absurd hk henter
    | window => exact absurd hk hwindow
    | _ => rfl

theorem Refines.step {ch : Int} (h : Refines s) (hlisted : Listed fs s.1) (hs : bothStep fs s ch = some t) :
    (keepsPanes fs s ch → Refines t) ∧ (¬ keepsPanes fs s ch → ¬ Refines t) := by
  obtain ⟨m, p⟩ := s
  obtain ⟨u, hu, rfl⟩ := Option.map_eq_some_iff.1 hs
  simp only [keepsPanes, ← keyOf_eq_window, paneStep_eq]
  -- a key that is no window switch meets the condition
  have hother : ∀ {v : Manager δ × Panes δ}, keyOf ch ≠ .window → Refines v →
      ((m.quit = false → keyOf ch = .window → StaysIn fs (p.dir (p.active + 1))) → Refines v) ∧
      (¬ (m.quit = false → keyOf ch = .window → StaysIn fs (p.dir (p.active + 1))) → ¬ Refines v) :=
    fun hkey hgood => ⟨fun _ => hgood, fun hbad => absurd (fun _ hwindow => absurd hwindow hkey) hbad⟩
  obtain ⟨hquit, rfl⟩ | ⟨hquit, hcases⟩ := step_cases hu
  · rw [hquit]
    exact ⟨fun _ => h, fun hbad => absurd (fun hrun => nomatch hrun) hbad⟩
  rw [hquit] at hother ⊢
  obtain ⟨hk, rfl⟩ | ⟨hk, -, rfl⟩ | ⟨hk, -, rfl⟩ | ⟨hk, -, rfl⟩ | ⟨hk, -, rfl⟩ | ⟨hk, henter⟩ | ⟨hk, hswitch⟩ |
    ⟨hk, rfl⟩ := hcases
  all_goals rw [hk] at hother ⊢
  · exact hother nofun (h.congr ⟨rfl, rfl, rfl⟩)
  · exact hother nofun (h.congr (moveSelection_fields m 1))
  · exact hother nofun h
  · exact hother nofun (h.congr (moveSelection_fields m (-1)))
  · exact hother nofun h
  · exact hother nofun (refines_enter h hlisted henter)
  · have hiff := refines_switch_iff h hswitch
    exact ⟨fun hok => hiff.2 (hok rfl rfl), fun hbad hr => hbad fun _ _ => hiff.1 hr⟩
  · exact hother nofun h

theorem Listed.both {ch : Int} (h : Listed fs s.1) (hs : bothStep fs s ch = some t) : Listed fs t.1 := by
  obtain ⟨u, hu, rfl⟩ := Option.map_eq_some_iff.1 hs
  exact h.step hu

/-! ## Runs -/

/-- Both windows in the directory the program was started in. -/
def samePanes (cwd : δ) : Panes δ := { dir := fun _ => cwd, active := 0 }

theorem refines_start_iff {cwd : δ} {screenHeight screenWidth : Int} {m : Manager δ}
    (hs : start fs cwd screenHeight screenWidth = some m) : Refines (m, samePanes cwd) ↔ StaysIn fs cwd := by
  obtain ⟨u, hu, hs⟩ := Option.bind_eq_some_iff.1 hs
  obtain ⟨hcwd₁, hmemorized₁, hactive₁⟩ := switchActiveWindow_fields hu
  obtain ⟨hcwd₂, hmemorized₂, hactive₂⟩ := switchActiveWindow_fields hs
  rw [hmemorized₁, Option.getD_some] at hcwd₂
  rw [hcwd₁] at hmemorized₂
  rw [hactive₁] at hactive₂
  rw [staysIn_iff]
  constructor
  · intro hr
    exact hcwd₂.symm.trans hr.cwd
  · intro hland
    constructor
    · exact hactive₂
    · exact hcwd₂.trans hland
    · exact hmemorized₂.trans (congrArg some hland)

theorem run_both_defined (fs : FileSystem δ) : ∀ (es : List Int) (s : Manager δ × Panes δ), Selected s.1 →
    ∃ t, Run.run (bothStep fs) s es = some t
  | [], s, _ => ⟨s, rfl⟩
  | ch :: es, s, h => by
    obtain ⟨u, hu, hsel⟩ := h.step fs ch
    rw [Run.run_cons, bothStep, hu]
    exact run_both_defined fs es _ hsel

/-- **Each window keeps its own directory exactly when every switch stays in the directory it changes to**, the two before
the first key included: the first entry of a sorted directory is `.` or else one that cannot be entered. -/
theorem panes_iff (fs : FileSystem δ) (cwd : δ) (screenHeight screenWidth : Int) :
    ∃ m, start fs cwd screenHeight screenWidth = some m ∧ ∀ es : List Int,
      (∃ t, Run.run (bothStep fs) (m, samePanes cwd) es = some t) ∧
      (Run.Always (bothStep fs) Refines (m, samePanes cwd) es ↔
        StaysIn fs cwd ∧ Run.Steps (bothStep fs) (keepsPanes fs) (m, samePanes cwd) es) := by
  obtain ⟨m, hm, hsel⟩ := start_selected fs cwd screenHeight screenWidth
  refine ⟨m, hm, fun es => ?_⟩
  obtain ⟨t, ht⟩ := run_both_defined fs es (m, samePanes cwd) hsel
  refine ⟨⟨t, ht⟩, ?_⟩
  have hlisted : Listed fs m := by
    obtain ⟨u, -, hu⟩ := Option.bind_eq_some_iff.1 hm
    exact Listed.switchActiveWindow hu
  have hiff : Refines (m, samePanes cwd) → (Run.Always (bothStep fs) Refines (m, samePanes cwd) es ↔
      Run.Steps (bothStep fs) (keepsPanes fs) (m, samePanes cwd) es) := fun h0 =>
    Run.always_iff_steps (fun s => Refines s ∧ Listed fs s.1)
      (fun _ _ _ h hok hs => ⟨(h.1.step h.2 hs).1 hok, h.2.both hs⟩) (fun _ h => h.1)
      (fun _ _ _ h hok hs => (h.1.step h.2 hs).2 hok) ⟨h0, hlisted⟩ ht
  constructor
  · intro hall
    have h0 := hall [] _ List.nil_prefix rfl
    exact ⟨(refines_start_iff hm).1 h0, (hiff h0).1 hall⟩
  · rintro ⟨hstays, hsteps⟩
    exact (hiff ((refines_start_iff hm).2 hstays)).2 hsteps

/-- A directory none of whose names sorts before `.` is one to stay in. -/
theorem staysIn_of_dot_least {d : δ} (h : ∀ name ∈ fs.entries d, alphasortLe dot name = true) : StaysIn fs d := by
  have hfirst : (scandir fs d)[0]? = some dot := by
    have hrest : ∀ name ∈ (dotdot :: fs.entries d).insertionSort (fun a b => alphasortLe a b = true),
        alphasortLe dot name = true := by
      intro name hname
      rw [List.mem_insertionSort] at hname
      rcases List.mem_cons.1 hname with rfl | hname
      · decide
      · exact h name hname
    rw [scandir, List.insertionSort_cons]
    cases hsorted : (dotdot :: fs.entries d).insertionSort (fun a b => alphasortLe a b = true) with
    | nil => rfl
    | cons b names =>
      rw [hsorted] at hrest
      rw [List.orderedInsert_cons, if_pos (hrest b List.mem_cons_self)]
      rfl
  intro name hname e he
  obtain rfl := Option.some.inj (hfirst.symm.trans hname)
  rw [chdir, if_pos rfl] at he
  exact (Option.some.inj he).symm

/-- A tree whose root has a directory `-d`. -/
def dashTree : FileSystem Bool where
  entries d := if d then [str ['-', 'd']] else []
  child d name := if d ∧ name = str ['-', 'd'] then some false else none
  parent _ := some true

/-- The program started in the root begins in `-d`. -/
theorem dash_directory_entered : ∃ m, start dashTree true 24 80 = some m ∧ m.cwd = false ∧
    ¬ Refines (m, samePanes true) :=
  ⟨(start dashTree true 24 80).get (by decide), (Option.some_get _).symm, by decide, fun h => absurd h.cwd (by decide)⟩

end FileManager
end Eltex
