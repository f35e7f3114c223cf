import EltexTasks.Viewport
/-!
# WindowFrame — the rows inside the frame

The rows `print_text` writes, between the paddings of the window.  `get_namelist` compares the number of entries with
the whole height of the screen, so a directory that is too long for the frame by one or two entries is not cut
(`FitsFrame`), and the up and down keys keep the number of lines shown (`Framed.move`).
-/
namespace Eltex
namespace FileManager

variable {δ : Type}

/-- Each row `print_text` moves to is inside the frame. -/
def InFrame (info : FileManagerInfo δ) : Prop :=
  ∀ line ∈ printLines info, info.topPadding ≤ line.1 ∧ line.1 ≤ info.screenHeight - info.bottomPadding - 1

def ShownInFrame (s : Manager δ) : Prop := ∀ info ∈ s.printed, InFrame info

instance (info : FileManagerInfo δ) : Decidable (InFrame info) := inferInstanceAs (Decidable (∀ line ∈ printLines info, _))

instance (s : Manager δ) : Decidable (ShownInFrame s) := inferInstanceAs (Decidable (∀ info ∈ s.printed, InFrame info))

/-- The directory has not just one or two entries too many for the frame. -/
def FitsFrame (fs : FileSystem δ) (screenHeight : Int) (d : δ) : Prop :=
  (scandir fs d).length ≤ screenHeight - 2 ∨ ((scandir fs d).length : Int) > screenHeight

instance (fs : FileSystem δ) (screenHeight : Int) (d : δ) : Decidable (FitsFrame fs screenHeight d) :=
  inferInstanceAs (Decidable (_ ∨ _))

/-- The directory that the window switch enters from `d`, by the first entry of `d`. -/
def firstEntered (fs : FileSystem δ) (d : δ) : Option δ := ((scandir fs d)[0]?).bind (chdir fs d)

/-- The number of lines shown fits between the paddings. -/
def Room (info : FileManagerInfo δ) : Prop :=
  info.lineLast - info.lineFirst + info.topPadding ≤ info.screenHeight - info.bottomPadding - 1

variable {fs : FileSystem δ} {s t : Manager δ}

/-- The rows printed are as many as the lines shown. -/
theorem inFrame_iff {info : FileManagerInfo δ} (h : InView info) : InFrame info ↔ Room info := by
  obtain ⟨-, hfirst, hlast, -⟩ := h
  have hmem : ∀ i, (i - info.lineFirst + info.topPadding, i) ∈ printLines info ↔ info.lineFirst ≤ i ∧ i ≤ info.lineLast := by
    intro i
    rw [printLines, List.mem_map]
    constructor
    · rintro ⟨j, hj, heq⟩
      obtain rfl : j = i := (Prod.mk.inj heq).2
      rw [List.mem_append, List.mem_append, mem_intRange, mem_intRange, List.mem_singleton] at hj
      omega
    · intro hi
      refine ⟨i, ?_, rfl⟩
      rw [List.mem_append, List.mem_append, mem_intRange, mem_intRange, List.mem_singleton]
      omega
  constructor
  · intro hrows
    exact (hrows _ ((hmem info.lineLast).2 ⟨by omega, Int.le_refl _⟩)).2
  · intro hroom line hline
    obtain ⟨i, hi, rfl⟩ := List.mem_map.1 hline
    have hi := (hmem i).1 hline
    unfold Room at hroom
    simp only
    omega

/-! ## The first directory -/

theorem room_getNamelist (fs : FileSystem δ) (htop : s.info.topPadding = 1) (hbottom : s.info.bottomPadding = 1)
    (hfirst : s.info.lineFirst = 0) : Room (getNamelist fs s).info ↔ FitsFrame fs s.info.screenHeight s.cwd := by
  unfold Room FitsFrame getNamelist
  simp only [htop, hbottom, hfirst]
  split <;> omega

/-- A window that has not been scrolled, in which the directory `d` is loaded. -/
structure AtTop (fs : FileSystem δ) (screenHeight : Int) (d : δ) (s : Manager δ) : Prop where
  inv : ViewInv s
  first : s.info.lineFirst = 0
  height : s.info.screenHeight = screenHeight
  room : Room s.info ↔ FitsFrame fs screenHeight d
  running : s.quit = false

variable {d : δ} {screenHeight : Int}

theorem shownInFrame_printText : ShownInFrame (printText s) ↔ ShownInFrame s ∧ InFrame s.info := by
  constructor
  · exact fun h => ⟨fun info hi => h info (mem_printed.2 (.inl hi)), h s.info (mem_printed.2 (.inr rfl))⟩
  · rintro ⟨hold, hnew⟩ info hi
    rcases mem_printed.1 hi with hi | rfl
    · exact hold info hi
    · exact hnew

theorem atTop_load (fs : FileSystem δ) (h : ViewInv (printText (getNamelist fs s))) (htop : s.info.topPadding = 1)
    (hbottom : s.info.bottomPadding = 1) (hfirst : s.info.lineFirst = 0) (hrunning : s.quit = false) :
    AtTop fs s.info.screenHeight s.cwd (printText (getNamelist fs s)) ∧
      (ShownInFrame (printText (getNamelist fs s)) ↔ ShownInFrame s ∧ FitsFrame fs s.info.screenHeight s.cwd) := by
  have hroom := room_getNamelist fs htop hbottom hfirst
  have hview : InView (getNamelist fs s).info := h.shown _ (mem_printed.2 (.inr rfl))
  refine ⟨⟨h, hfirst, rfl, hroom, hrunning⟩, ?_⟩
  rw [shownInFrame_printText, inFrame_iff hview, hroom]
  rfl

theorem atTop_opened (fs : FileSystem δ) (cwd : δ) (hheight : 5 ≤ screenHeight) (screenWidth : Int) :
    AtTop fs screenHeight cwd (opened fs cwd screenHeight screenWidth) ∧
      (ShownInFrame (opened fs cwd screenHeight screenWidth) ↔ FitsFrame fs screenHeight cwd) := by
  obtain ⟨htop, hshown⟩ := atTop_load fs (viewInv_opened fs cwd hheight screenWidth) rfl rfl rfl rfl
  refine ⟨htop, hshown.trans (and_iff_right ?_)⟩
  exact fun _ h => (nomatch h)

/-- The window switched to shows the directory that its first entry leads to, or stays with its own. -/
theorem AtTop.switch (h : AtTop fs screenHeight d s) (hs : switchActiveWindow fs s = some t) :
    AtTop fs screenHeight ((firstEntered fs (s.info.memorizedPath.getD s.cwd)).getD (s.info.memorizedPath.getD s.cwd)) t ∧
      t.info.memorizedPath = some s.cwd ∧
      (ShownInFrame t ↔ ShownInFrame s ∧
        ∀ e ∈ firstEntered fs (s.info.memorizedPath.getD s.cwd), FitsFrame fs screenHeight e) := by
  obtain ⟨hinv, hfirst, rfl, -, hrunning⟩ := h
  have hother := hinv.other fs
  have hloads : loadsAtTop fs (loadOtherWindow fs s) := by
    intro _
    show s.info.lineFirst ≤ 1
    omega
  have ht : ViewInv t := (hinv.switch hs).1 hloads
  obtain ⟨u, hu, rfl⟩ := Option.map_eq_some_iff.1 hs
  have hentered : entered fs (loadOtherWindow fs s) = firstEntered fs (s.info.memorizedPath.getD s.cwd) := rfl
  have hu' : ViewInv u := (hother.load hu).1 hloads
  obtain rfl := eq_switched hu
  cases hfe : firstEntered fs (s.info.memorizedPath.getD s.cwd) with
  | none =>
    have hstay : switched fs (loadOtherWindow fs s) = loadOtherWindow fs s := by rw [switched, hentered, hfe]
    rw [hstay] at ht ⊢
    have hroom := room_getNamelist fs (s := { s with
      cwd := s.info.memorizedPath.getD s.cwd
      info := { s.info with activeWindow := (s.info.activeWindow + 1) % 2 } }) hinv.top hinv.bottom hfirst
    refine ⟨⟨ht, hfirst, rfl, hroom, hrunning⟩, rfl, (and_iff_left ?_).symm⟩
    exact fun e he => by cases he
  | some e =>
    have hload : switched fs (loadOtherWindow fs s) =
        printText (getNamelist fs { loadOtherWindow fs s with cwd := e }) := by rw [switched, hentered, hfe]
    rw [hload] at ht hu' ⊢
    obtain ⟨htop, hshown⟩ := atTop_load fs hu' hother.top hother.bottom hfirst hrunning
    refine ⟨⟨ht, htop.first, htop.height, htop.room, htop.running⟩, rfl, hshown.trans (and_congr_right fun _ => ?_)⟩
    simp [loadOtherWindow, getNamelist]

theorem atTop_start {cwd : δ} {screenWidth : Int} (hheight : 5 ≤ screenHeight)
    (hs : start fs cwd screenHeight screenWidth = some s) :
    AtTop fs screenHeight ((firstEntered fs cwd).getD cwd) s ∧
      (ShownInFrame s ↔ FitsFrame fs screenHeight cwd ∧ ∀ d ∈ firstEntered fs cwd, FitsFrame fs screenHeight d) := by
  obtain ⟨hopen, hshown⟩ := atTop_opened fs cwd hheight screenWidth
  obtain ⟨u, hu, hs⟩ := Option.bind_eq_some_iff.1 hs
  obtain ⟨hfirst, hmem, hshown'⟩ := hopen.switch hu
  obtain ⟨hsecond, -, hshown''⟩ := hfirst.switch hs
  have hpath : u.info.memorizedPath.getD u.cwd = cwd := by
    rw [hmem]
    rfl
  rw [hpath] at hsecond hshown''
  refine ⟨hsecond, ?_⟩
  rw [hshown'', hshown', hshown]
  exact ⟨And.left, fun h => ⟨h, h.2⟩⟩

/-! ## The up and down keys -/

/-- A window in view with room for the lines it shows. -/
structure Framed (s : Manager δ) : Prop where
  inv : ViewInv s
  first : s.info.lineFirst ≤ s.info.selection
  room : Room s.info
  shown : ShownInFrame s

theorem room_scrolled (info : FileManagerInfo δ) : Room (scrolled info) ↔ Room info := by
  unfold Room scrolled
  simp only
  split
  · simp only
    omega
  · split
    · simp only
      omega
    · rfl

theorem Framed.move (h : Framed s) {lines : Int} (hlines : lines = 1 ∨ lines = -1)
    (hfirst : 0 ≤ s.info.selection + lines) (hlast : s.info.selection + lines < s.info.n) :
    Framed (moveSelection s lines) := by
  have hview : InView (scrolled { s.info with selection := s.info.selection + lines }) :=
    (inView_scrolled_iff h.inv hlines hfirst hlast).2 fun _ habove => by
      have := h.first
      omega
  have hinfo : (moveSelection s lines).info = scrolled { s.info with selection := s.info.selection + lines } :=
    scrollIfNecessary_info _
  have hroom : Room (scrolled { s.info with selection := s.info.selection + lines }) := (room_scrolled _).2 h.room
  constructor
  case inv => exact (h.inv.move lines).1 hview
  case first => rw [hinfo]; exact hview.2.1
  case room => rw [hinfo]; exact hroom
  case shown =>
    intro info hi
    rcases mem_printed_scroll.1 hi with hold | rfl
    · exact h.shown info hold
    · exact (inFrame_iff hview).2 hroom

/-- The up and down keys. -/
def isUpDown (e : FileSystem δ × Int) : Prop := keyOf e.2 = .up ∨ keyOf e.2 = .down

theorem Framed.step (h : Framed s) {e : FileSystem δ × Int} (he : isUpDown e) (hs : keyStep s e = some t) : Framed t := by
  have hfirst := h.inv.selection
  have hlast := h.inv.selectionLast
  have hn := h.inv.last
  obtain ⟨-, rfl⟩ | ⟨-, ⟨hk, -⟩ | ⟨-, hend, rfl⟩ | ⟨-, -, rfl⟩ | ⟨-, hend, rfl⟩ | ⟨-, -, rfl⟩ | ⟨hk, -⟩ | ⟨hk, -⟩ |
    ⟨hk, -⟩⟩ := step_cases hs
  · exact h
  · simp [isUpDown, hk] at he
  · exact h.move (.inl rfl) (by omega) (by omega)
  · exact h
  · exact h.move (.inr rfl) (by omega) (by omega)
  · exact h
  · simp [isUpDown, hk] at he
  · simp [isUpDown, hk] at he
  · simp [isUpDown, hk] at he

/-- **The rows printed are inside the frame, whatever up and down keys follow, just when the directory opened, and the
one its first entry leads to, have not one or two entries too many for the frame.** -/
theorem frame_iff (fs : FileSystem δ) (cwd : δ) (screenHeight screenWidth : Int) (hheight : 5 ≤ screenHeight) :
    ∃ s, start fs cwd screenHeight screenWidth = some s ∧ ∀ es : List (FileSystem δ × Int), (∀ e ∈ es, isUpDown e) →
      (∃ t, Run.run keyStep s es = some t) ∧
      (Run.Always keyStep ShownInFrame s es ↔
        FitsFrame fs screenHeight cwd ∧ ∀ d ∈ firstEntered fs cwd, FitsFrame fs screenHeight d) := by
  obtain ⟨s, hs, hsel⟩ := start_selected fs cwd screenHeight screenWidth
  obtain ⟨htop, hshown⟩ := atTop_start hheight hs
  refine ⟨s, hs, fun es hes => ⟨run_defined es s hsel, ?_, fun hfits => ?_⟩⟩
  · exact fun hall => hshown.1 (hall [] s List.nil_prefix rfl)
  · have hroom : Room s.info := by
      rw [htop.room]
      cases hfe : firstEntered fs cwd with
      | none => exact hfits.1
      | some d => exact hfits.2 d hfe
    have hfirst : s.info.lineFirst ≤ s.info.selection := htop.first ▸ htop.inv.selection
    have hframed : Framed s := ⟨htop.inv, hfirst, hroom, hshown.2 hfits⟩
    have hsteps : Run.Steps keyStep (fun _ e => isUpDown e) s es := fun pre e t hpre _ =>
      hes e (hpre.subset (List.mem_append_right pre List.mem_cons_self))
    exact Run.always_of_steps (fun s e t h he hs => h.step he hs) (fun _ h => h.shown) hframed hsteps

/-- On a screen of 24 rows the six lines move freely. -/
theorem frame_iff_tall : ∃ s, start sixLines true 24 80 = some s ∧ ∀ es : List (FileSystem Bool × Int),
    (∀ e ∈ es, isUpDown e) → (∃ t, Run.run keyStep s es = some t) ∧
      (Run.Always keyStep ShownInFrame s es ↔
        FitsFrame sixLines 24 true ∧ ∀ d ∈ firstEntered sixLines true, FitsFrame sixLines 24 d) :=
  frame_iff sixLines true 24 80 (by decide)

/-- Six lines on a screen of six rows, two of which the frame takes. -/
theorem rows_out_of_frame : ∃ s, start sixLines true 6 80 = some s ∧ ¬ Run.Always keyStep ShownInFrame s [] := by
  refine ⟨(start sixLines true 6 80).get (by decide), (Option.some_get _).symm, fun h => ?_⟩
  have hshown := h [] _ List.nil_prefix rfl
  revert hshown
  decide

end FileManager
end Eltex
