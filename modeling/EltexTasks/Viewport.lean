import EltexTasks.FileManager
/-!
# Viewport — the lines a window shows

At each call of `print_text` the lines `line_first` to `line_last` are lines of the directory and the selected one is
among them (`InView`), as long as no directory is loaded and printed while `line_first` is more than 1:
`get_namelist` sets the other fields of the viewport only.
-/
namespace Eltex
namespace FileManager

variable {δ : Type}

/-- What `print_text` relies on. -/
def InView (info : FileManagerInfo δ) : Prop :=
  0 ≤ info.lineFirst ∧ info.lineFirst ≤ info.selection ∧ info.selection ≤ info.lineLast ∧ info.lineLast < info.n

def ShownInView (s : Manager δ) : Prop := ∀ info ∈ s.printed, InView info

instance (info : FileManagerInfo δ) : Decidable (InView info) := inferInstanceAs (Decidable (_ ∧ _ ∧ _ ∧ _))

instance (s : Manager δ) : Decidable (ShownInView s) := inferInstanceAs (Decidable (∀ info ∈ s.printed, InView info))

theorem mem_intRange {a b i : Int} : i ∈ intRange a b ↔ a ≤ i ∧ i < b := by
  rw [intRange, List.mem_map]
  constructor
  · rintro ⟨k, hk, rfl⟩
    rw [List.mem_range] at hk
    omega
  · rintro ⟨ha, hb⟩
    exact ⟨(i - a).toNat, by rw [List.mem_range]; omega, by omega⟩

/-- Every index `print_text` reads is that of an entry. -/
theorem index_of_inView {info : FileManagerInfo δ} (h : InView info) :
    ∀ line ∈ printLines info, 0 ≤ line.2 ∧ line.2 < info.n := by
  obtain ⟨h0, h1, h2, h3⟩ := h
  intro line hline
  obtain ⟨i, hi, rfl⟩ := List.mem_map.1 hline
  rw [List.mem_append, List.mem_append, mem_intRange, mem_intRange, List.mem_singleton] at hi
  simp only
  omega

/-- A directory is loaded and printed only at the top of the window. -/
def loadsAtTop (fs : FileSystem δ) (s : Manager δ) : Prop := (entered fs s).isSome → s.info.lineFirst ≤ 1

/-- The keys that keep the viewport: a directory is entered, by its name or by the window switch, with `line_first` at
most 1, and the selection moves down into a viewport that has a line. -/
def keepsView (s : Manager δ) : FileSystem δ × Int → Prop
  | (fs, ch) =>
    if s.quit then True
    else if ch = key 'q' then True
    else if ch = keyDown ∨ ch = key 'j' then
      s.info.selection < s.info.n - 1 → s.info.selection + 1 < s.info.lineFirst → s.info.lineFirst ≤ s.info.lineLast
    else if ch = keyUp ∨ ch = key 'k' then True
    else if ch = keyEnter ∨ ch = key 'e' then loadsAtTop fs s
    else if ch = key '\t' ∨ ch = key 'w' then loadsAtTop fs (loadOtherWindow fs s)
    else True

instance (fs : FileSystem δ) (s : Manager δ) : Decidable (loadsAtTop fs s) :=
  inferInstanceAs (Decidable ((entered fs s).isSome = true → s.info.lineFirst ≤ 1))

instance (s : Manager δ) : ∀ e, Decidable (keepsView s e)
  | (_, _) => inferInstanceAs (Decidable (ite _ _ _))

/-- A key read while the directories are as in `fs`. -/
def keyStep (s : Manager δ) (e : FileSystem δ × Int) : Option (Manager δ) := step e.1 s e.2

structure ViewInv (s : Manager δ) : Prop where
  height : 5 ≤ s.info.screenHeight
  top : s.info.topPadding = 1
  bottom : s.info.bottomPadding = 1
  n : s.info.n = s.namelist.length
  first : 0 ≤ s.info.lineFirst
  selection : 0 ≤ s.info.selection
  selectionLast : s.info.selection ≤ s.info.lineLast
  last : s.info.lineLast < s.info.n
  -- a window switched to whose first entry could not be entered has not been printed yet
  firstSelection : s.info.lineFirst ≤ s.info.selection ∨ (s.info.selection = 0 ∧ 1 ≤ s.info.lineLast)
  shown : ShownInView s

variable {fs : FileSystem δ} {s t : Manager δ}

/-! ## Loading a directory -/

/-- The fields `get_namelist` sets. -/
structure Loaded (s t : Manager δ) : Prop where
  selection : t.info.selection = 1
  lineLast : 1 ≤ t.info.lineLast ∧ t.info.lineLast < t.info.n
  n : t.info.n = t.namelist.length
  height : t.info.screenHeight = s.info.screenHeight
  top : t.info.topPadding = s.info.topPadding
  bottom : t.info.bottomPadding = s.info.bottomPadding
  first : t.info.lineFirst = s.info.lineFirst
  printed : t.printed = s.printed

theorem loaded (fs : FileSystem δ) (hheight : 5 ≤ s.info.screenHeight) (htop : s.info.topPadding = 1)
    (hbottom : s.info.bottomPadding = 1) : Loaded s (getNamelist fs s) := by
  refine ⟨rfl, ?_, rfl, rfl, rfl, rfl, rfl, rfl⟩
  simp only [getNamelist, length_scandir]
  split
  · constructor
    · omega
    · omega
  · constructor
    · omega
    · omega

theorem ViewInv.selected (h : ViewInv s) : Selected s where
  n := h.n
  first := h.selection
  last := Int.lt_of_le_of_lt h.selectionLast h.last

theorem mem_printed {info : FileManagerInfo δ} : info ∈ (printText s).printed ↔ info ∈ s.printed ∨ info = s.info := by
  rw [printText, List.mem_append, List.mem_singleton]

theorem viewInv_loaded (fs : FileSystem δ) (hheight : 5 ≤ s.info.screenHeight) (htop : s.info.topPadding = 1)
    (hbottom : s.info.bottomPadding = 1) (h0 : 0 ≤ s.info.lineFirst) (h1 : s.info.lineFirst ≤ 1)
    (hshown : ShownInView s) : ViewInv (printText (getNamelist fs s)) := by
  have hl := loaded fs hheight htop hbottom
  have hview : InView (getNamelist fs s).info := by
    rw [InView, hl.first, hl.selection]
    exact ⟨h0, h1, hl.lineLast⟩
  constructor
  case height => exact hl.height ▸ hheight
  case top => exact hl.top.trans htop
  case bottom => exact hl.bottom.trans hbottom
  case n => exact hl.n
  case first => exact hview.1
  case selection => exact hview.1.trans hview.2.1
  case selectionLast => exact hview.2.2.1
  case last => exact hview.2.2.2
  case firstSelection => exact Or.inl hview.2.1
  case shown =>
    intro info hmem
    rcases mem_printed.1 hmem with hold | rfl
    · exact hshown info (hl.printed ▸ hold)
    · exact hview

/-- A directory that is loaded and printed. -/
theorem ViewInv.load (h : ViewInv s) (hs : switchDirectory fs s = some t) :
    (loadsAtTop fs s → ViewInv t) ∧ (¬ loadsAtTop fs s → ¬ ShownInView t) := by
  obtain rfl := eq_switched hs
  unfold loadsAtTop switched
  cases entered fs s with
  | none => exact ⟨fun _ => h, fun hbad => absurd (fun hsome => (nomatch hsome)) hbad⟩
  | some d =>
    constructor
    · intro hok
      exact viewInv_loaded fs h.height h.top h.bottom h.first (hok rfl) h.shown
    · intro hbad hall
      have hview : InView (getNamelist fs { s with cwd := d }).info := hall _ (mem_printed.2 (Or.inr rfl))
      exact hbad fun _ => hview.2.1

/-! ## Moving the selection -/

/-- The viewport after `scroll_if_necessary`. -/
def scrolled (info : FileManagerInfo δ) : FileManagerInfo δ :=
  let dif := info.lineLast - info.lineFirst
  if info.selection < info.lineFirst then { info with lineFirst := info.selection, lineLast := info.selection + dif }
  else if info.selection > info.lineLast then { info with lineLast := info.selection, lineFirst := info.selection - dif }
  else info

theorem scrollIfNecessary_info (s : Manager δ) : (scrollIfNecessary s).info = scrolled s.info := by
  unfold scrollIfNecessary scrolled
  simp only
  split
  · rfl
  · split <;> rfl

theorem mem_printed_scroll {info : FileManagerInfo δ} :
    info ∈ (printText (scrollIfNecessary s)).printed ↔ info ∈ s.printed ∨ info = scrolled s.info := by
  rw [mem_printed, scrollIfNecessary_info]
  unfold scrollIfNecessary
  simp only
  split
  case isTrue hlt =>
    rw [mem_printed, scrolled]
    simp [hlt]
  case isFalse hge =>
    split
    case isTrue hgt =>
      rw [mem_printed, scrolled]
      simp [hge, hgt]
    case isFalse => rfl

theorem scrolled_fields (info : FileManagerInfo δ) : (scrolled info).selection = info.selection ∧
    (scrolled info).n = info.n ∧ (scrolled info).screenHeight = info.screenHeight ∧
    (scrolled info).topPadding = info.topPadding ∧ (scrolled info).bottomPadding = info.bottomPadding := by
  unfold scrolled
  simp only
  split
  · exact ⟨rfl, rfl, rfl, rfl, rfl⟩
  · split <;> exact ⟨rfl, rfl, rfl, rfl, rfl⟩

/-- A moved selection is kept in view, unless it moves down into an empty viewport. -/
theorem inView_scrolled_iff (h : ViewInv s) {lines : Int} (hlines : lines = 1 ∨ lines = -1)
    (hfirst : 0 ≤ s.info.selection + lines) (hlast : s.info.selection + lines < s.info.n) :
    InView (scrolled { s.info with selection := s.info.selection + lines }) ↔
      (lines = 1 → s.info.selection + 1 < s.info.lineFirst → s.info.lineFirst ≤ s.info.lineLast) := by
  have h0 := h.first
  have h1 := h.selection
  have h2 := h.selectionLast
  have h3 := h.last
  have h4 := h.firstSelection
  unfold InView scrolled
  simp only
  split
  · simp only
    omega
  · split
    · simp only
      omega
    · simp only
      omega

theorem ViewInv.move (h : ViewInv s) (lines : Int) :
    (InView (scrolled { s.info with selection := s.info.selection + lines }) → ViewInv (moveSelection s lines)) ∧
    (¬ InView (scrolled { s.info with selection := s.info.selection + lines }) → ¬ ShownInView (moveSelection s lines)) := by
  have hinfo : (moveSelection s lines).info = scrolled { s.info with selection := s.info.selection + lines } :=
    scrollIfNecessary_info _
  have hnames : (moveSelection s lines).namelist = s.namelist := by
    obtain ⟨_, _, _, hmove⟩ := moveSelection_frame s lines
    rw [hmove]
  have hmem : ∀ info, info ∈ (moveSelection s lines).printed ↔
      info ∈ s.printed ∨ info = scrolled { s.info with selection := s.info.selection + lines } :=
    fun info => mem_printed_scroll
  obtain ⟨hsel, hn, hheight, htop, hbottom⟩ := scrolled_fields { s.info with selection := s.info.selection + lines }
  constructor
  · intro hv
    constructor
    case height => rw [hinfo, hheight]; exact h.height
    case top => rw [hinfo, htop]; exact h.top
    case bottom => rw [hinfo, hbottom]; exact h.bottom
    case n => rw [hinfo, hn, hnames]; exact h.n
    case first => rw [hinfo]; exact hv.1
    case selection => rw [hinfo]; exact hv.1.trans hv.2.1
    case selectionLast => rw [hinfo]; exact hv.2.2.1
    case last => rw [hinfo]; exact hv.2.2.2
    case firstSelection => rw [hinfo]; exact Or.inl hv.2.1
    case shown =>
      intro info hi
      rcases (hmem info).1 hi with hold | rfl
      · exact h.shown info hold
      · exact hv
  · intro hv hall
    exact hv (hall _ ((hmem _).2 (Or.inr rfl)))

/-! ## The keys -/

theorem ViewInv.other (h : ViewInv s) (fs : FileSystem δ) : ViewInv (loadOtherWindow fs s) := by
  have hl : Loaded { s with cwd := s.info.memorizedPath.getD s.cwd, info := { s.info with
      activeWindow := (s.info.activeWindow + 1) % 2 } } _ := loaded fs h.height h.top h.bottom
  have h1 := hl.lineLast.1
  exact {
    height := h.height
    top := h.top
    bottom := h.bottom
    n := rfl
    first := h.first
    selection := Int.le_refl 0
    selectionLast := Int.le_trans (show (0 : Int) ≤ 1 by decide) h1
    last := hl.lineLast.2
    firstSelection := Or.inr ⟨rfl, h1⟩
    shown := h.shown }

theorem ViewInv.setMemorized (h : ViewInv s) (path : Option δ) :
    ViewInv { s with info := { s.info with memorizedPath := path } } :=
  ⟨h.height, h.top, h.bottom, h.n, h.first, h.selection, h.selectionLast, h.last, h.firstSelection, h.shown⟩

theorem ViewInv.switch (h : ViewInv s) (hs : switchActiveWindow fs s = some t) :
    (loadsAtTop fs (loadOtherWindow fs s) → ViewInv t) ∧ (¬ loadsAtTop fs (loadOtherWindow fs s) → ¬ ShownInView t) := by
  obtain ⟨u, hu, rfl⟩ := Option.map_eq_some_iff.1 hs
  obtain ⟨hgood, hbad⟩ := (h.other fs).load hu
  exact ⟨fun hok => (hgood hok).setMemorized _, hbad⟩

theorem keepsView_eq (h : s.quit = false) (fs : FileSystem δ) (ch : Int) : keepsView s (fs, ch) =
    match keyOf ch with
    | .down => s.info.selection < s.info.n - 1 → s.info.selection + 1 < s.info.lineFirst → s.info.lineFirst ≤ s.info.lineLast
    | .enter => loadsAtTop fs s
    | .window => loadsAtTop fs (loadOtherWindow fs s)
    | _ => True := by
  unfold keepsView keyOf
  simp only
  rw [h, if_neg Bool.false_ne_true]
  split_ifs <;> rfl

theorem ViewInv.step (h : ViewInv s) {e : FileSystem δ × Int} (hs : keyStep s e = some t) :
    (keepsView s e → ViewInv t) ∧ (¬ keepsView s e → ¬ ShownInView t) := by
  obtain ⟨fs, ch⟩ := e
  have hgood : ∀ {u : Manager δ}, keepsView s (fs, ch) → ViewInv u →
      (keepsView s (fs, ch) → ViewInv u) ∧ (¬ keepsView s (fs, ch) → ¬ ShownInView u) :=
    fun hok hinv => ⟨fun _ => hinv, fun hbad => absurd hok hbad⟩
  have h1 := h.selection
  have h2 := h.selectionLast
  have h3 := h.last
  obtain ⟨hquit, rfl⟩ | ⟨hquit, hcases⟩ := step_cases hs
  · exact hgood (by simp only [keepsView, if_pos hquit]) h
  rw [keepsView_eq hquit] at hgood ⊢
  obtain ⟨hk, rfl⟩ | ⟨hk, hend, rfl⟩ | ⟨hk, hend, rfl⟩ | ⟨hk, hend, rfl⟩ | ⟨hk, -, rfl⟩ | ⟨hk, henter⟩ | ⟨hk, hswitch⟩ |
    ⟨hk, rfl⟩ := hcases
  all_goals rw [hk] at hgood ⊢
  · exact hgood trivial
      ⟨h.height, h.top, h.bottom, h.n, h.first, h1, h2, h3, h.firstSelection, h.shown⟩
  · have hview := inView_scrolled_iff h (Or.inl rfl) (by omega) (by omega)
    obtain ⟨hmoved, hlost⟩ := h.move 1
    constructor
    · exact fun hok => hmoved (hview.2 fun _ => hok hend)
    · exact fun hno => hlost fun hv => hno fun _ => hview.1 hv rfl
  · exact hgood (fun hlt => absurd hlt hend) h
  · have hview := inView_scrolled_iff h (Or.inr rfl) (by omega) (by omega)
    exact hgood trivial ((h.move (-1)).1 (hview.2 fun hone => absurd hone (by decide)))
  · exact hgood trivial h
  · exact h.load henter
  · exact h.switch hswitch
  · exact hgood trivial h

theorem lineFirst_switchActiveWindow (hs : switchActiveWindow fs s = some t) : t.info.lineFirst = s.info.lineFirst := by
  obtain ⟨u, hu, rfl⟩ := Option.map_eq_some_iff.1 hs
  obtain rfl := eq_switched hu
  unfold switched
  cases entered fs (loadOtherWindow fs s) <;> rfl

theorem run_defined : ∀ (es : List (FileSystem δ × Int)) (s : Manager δ), Selected s → ∃ t, Run.run keyStep s es = some t
  | [], s, _ => ⟨s, rfl⟩
  | e :: es, s, h => by
    obtain ⟨u, hu, hsel⟩ := h.step e.1 e.2
    rw [Run.run_cons, show keyStep s e = some u from hu]
    exact run_defined es u hsel

theorem viewInv_opened (fs : FileSystem δ) (cwd : δ) {screenHeight : Int} (hheight : 5 ≤ screenHeight)
    (screenWidth : Int) : ViewInv (opened fs cwd screenHeight screenWidth) :=
  viewInv_loaded fs hheight rfl rfl (Int.le_refl 0) (show (0 : Int) ≤ 1 by decide) (fun _ h => (nomatch h))

theorem viewInv_start {cwd : δ} {screenHeight screenWidth : Int} (hheight : 5 ≤ screenHeight)
    (hs : start fs cwd screenHeight screenWidth = some s) : ViewInv s := by
  obtain ⟨u, hu, hs⟩ := Option.bind_eq_some_iff.1 hs
  have hopened := viewInv_opened fs cwd hheight screenWidth
  have hfirst : u.info.lineFirst = 0 := lineFirst_switchActiveWindow hu
  have hinv : ViewInv u := (hopened.switch hu).1 fun _ => (show (0 : Int) ≤ 1 by decide)
  refine (hinv.switch hs).1 fun _ => ?_
  rw [show (loadOtherWindow fs u).info.lineFirst = u.info.lineFirst from rfl, hfirst]
  decide

/-- **The lines printed are in view exactly along the runs in which no directory is entered with `line_first` more than
1**, by its name or as the other window's, and no selection moves down into an empty viewport. -/
theorem viewport_iff (fs : FileSystem δ) (cwd : δ) (screenHeight screenWidth : Int) (hheight : 5 ≤ screenHeight) :
    ∃ s, start fs cwd screenHeight screenWidth = some s ∧ ∀ es : List (FileSystem δ × Int),
      (∃ t, Run.run keyStep s es = some t) ∧ (Run.Always keyStep ShownInView s es ↔ Run.Steps keyStep keepsView s es) := by
  obtain ⟨s, hs, hsel⟩ := start_selected fs cwd screenHeight screenWidth
  refine ⟨s, hs, fun es => ?_⟩
  obtain ⟨t, ht⟩ := run_defined es s hsel
  refine ⟨⟨t, ht⟩, ?_⟩
  refine Run.always_iff_steps ViewInv (fun s e t h hok hs => ?_) (fun _ h => h.shown) (fun s e t h hok hs => ?_)
    (viewInv_start hheight hs) ht
  · exact (h.step hs).1 hok
  · exact (h.step hs).2 hok

/-- Four entries, of which `c` is an empty directory. -/
def sixLines : FileSystem Bool where
  entries d := if d then [str ['a'], str ['b'], str ['c'], str ['d']] else []
  child d name := if d ∧ name = str ['c'] then some false else none
  parent _ := some true

/-- A screen that holds all lines. -/
theorem in_view_on_tall_screen : ∃ s, start sixLines true 24 80 = some s ∧ Run.Always keyStep ShownInView s
    (['j', 'j', 'j', 'e', 'w', 'k'].map fun k => (sixLines, key k)) := by
  obtain ⟨s, hs, h⟩ := viewport_iff sixLines true 24 80 (by decide)
  refine ⟨s, hs, (h _).2.2 ?_⟩
  obtain rfl := Option.some.inj hs
  decide

/-- Scrolled down to `c`, which is then entered: the selected line is above the first line shown. -/
theorem short_directory_out_of_view : ∃ s t, start sixLines true 5 80 = some s ∧
    Run.run keyStep s (['j', 'j', 'j', 'e'].map fun k => (sixLines, key k)) = some t ∧ ¬ ShownInView t := by
  refine ⟨(start sixLines true 5 80).get (by decide), (Run.run keyStep ((start sixLines true 5 80).get (by decide))
    (['j', 'j', 'j', 'e'].map fun k => (sixLines, key k))).get (by decide), (Option.some_get _).symm,
    (Option.some_get _).symm, ?_⟩
  decide

end FileManager
end Eltex
