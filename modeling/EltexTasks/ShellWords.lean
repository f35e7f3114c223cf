import EltexTasks.Shell
/-!
# ShellWords — `separate_args` and the words of a line

The words of a line are its maximal runs of characters other than a space.  `separate_args` cuts the line at every
space instead, and its pipe test compares no byte at all for an empty piece, which so passes for the word `|`
(`separateArgs_eq`).  The two cuts agree exactly where no extra space comes before the first word `|`, or all of them
directly before it (`separateArgs_words_iff`).
-/
namespace Eltex
namespace Shell

/-- The words of a line: its maximal runs of characters other than a space. -/
def words : CString → List CString
  | [] => []
  | b :: s => if b = space then words s else (b :: s.takeWhile (· != space)) :: words (s.dropWhile (· != space))
termination_by s => s.length
decreasing_by
  · exact Nat.lt_succ_self _
  · exact Nat.lt_succ_of_le (List.length_dropWhile_le _ _)

/-- The pieces of a line between its spaces. -/
def pieces (line : CString) : List CString := line.splitOn space

/-- The pipe test of `separate_args` lets the piece pass. -/
def isArg (piece : CString) : Bool := piece != [] && piece != bar

/-- **The line is tidy**: every extra space, which is an empty piece, comes after the first word `|` or directly before
it. -/
def Tidy (line : CString) : Prop :=
  ∀ pre post, pieces line = pre ++ [] :: post → bar ∈ pre ∨ post.find? (· != []) = some bar

/-! ## The pieces -/

theorem pieces_of_none {s : CString} (h : strchr s space = none) : pieces s = [s] :=
  List.splitOn_eq_singleton (List.idxOf?_eq_none_iff.1 h)

theorem pieces_cons_space (s : CString) : pieces (space :: s) = [] :: pieces s := by
  unfold pieces
  rw [List.splitOn_cons_eq_if_modifyHead]
  simp

theorem pieces_append_space {w : CString} (hw : space ∉ w) (s : CString) : pieces (w ++ space :: s) = w :: pieces s :=
  List.splitOn_append_cons_self_of_not_mem hw s

theorem pieces_of_some {s : CString} {n : Nat} (h : strchr s space = some n) :
    pieces s = s.take n :: pieces (s.drop (n + 1)) := by
  obtain ⟨hsplit, hnot⟩ := split_of_strchr h
  conv => lhs; rw [hsplit]
  exact pieces_append_space hnot _

/-- The words are the pieces that are not empty. -/
theorem words_eq (line : CString) : words line = (pieces line).filter (· != []) := by
  fun_induction words line with
  | case1 => rfl
  | case2 s ih => rw [pieces_cons_space, ih]; rfl
  | case3 b s hb ih =>
    have hs := List.takeWhile_append_dropWhile (p := (· != space)) (l := s)
    have hfree : space ∉ b :: s.takeWhile (· != space) := by
      intro hmem
      rcases List.mem_cons.1 hmem with h | h
      · exact hb h.symm
      · exact absurd (List.mem_takeWhile_imp h) (by simp)
    cases hdrop : s.dropWhile (· != space) with
    | nil =>
      rw [hdrop, List.append_nil] at hs
      rw [hs] at hfree ⊢
      rw [pieces, List.splitOn_eq_singleton hfree, words]
      rfl
    | cons c s' =>
      have hc : c = space := by
        have := List.head?_dropWhile_not (· != space) s
        rw [hdrop] at this
        simpa using this
      subst hc
      rw [hdrop] at hs ih
      rw [ih]
      conv => rhs; rw [← hs, ← List.cons_append, pieces_append_space hfree]
      rw [pieces_cons_space]
      rfl

/-! ## The loop of `separate_args` -/

theorem strncmpEq_bar {s : CString} {n : Nat} (hn : n ≤ s.length) : strncmpEq bar s n = !isArg (s.take n) := by
  unfold strncmpEq isArg
  cases n with
  | zero => rfl
  | succ n =>
    have hne : s.take (n + 1) ≠ [] := by
      rw [ne_eq, List.take_eq_nil_iff, not_or]
      exact ⟨Nat.succ_ne_zero n, List.length_pos_iff.1 (by omega)⟩
    have hbar : bar.take (n + 1) = bar := List.take_of_length_le (by simp [bar, str])
    rw [hbar, bne_iff_ne.2 hne, Bool.true_and, bne, Bool.not_not, BEq.comm]

theorem separateArgsLoop_eq {line : CString} {linePos : Nat} {args : List CString}
    (h : linePos = 0 ∧ line ≠ [] ∨ 2 ≤ line.length) :
    separateArgsLoop line linePos args =
      (args ++ (pieces (line.drop linePos)).takeWhile isArg,
        if (pieces (line.drop linePos)).all isArg then 0 else 1) := by
  fun_induction separateArgsLoop line linePos args with
  | case1 linePos args hcond =>
    rw [List.getElem?_eq_none_iff] at hcond
    rcases h with ⟨rfl, hne⟩ | h
    · exact absurd (List.length_eq_zero_iff.1 (Nat.le_zero.1 hcond)) hne
    · split at hcond <;> omega
  | case2 linePos args b hcond hnone length hbar =>
    rw [strncmpEq_bar (Nat.le_refl _), List.take_length, Bool.not_eq_true'] at hbar
    rw [pieces_of_none hnone]
    simp [hbar]
  | case3 linePos args b hcond hnone length hbar =>
    rw [strncmpEq_bar (Nat.le_refl _), List.take_length, Bool.not_eq_true', Bool.not_eq_false] at hbar
    rw [pieces_of_none hnone, List.take_length]
    simp [hbar]
  | case4 linePos args b hcond length hsome hbar =>
    rw [strncmpEq_bar (Nat.le_of_lt (lt_of_strchr hsome)), Bool.not_eq_true'] at hbar
    rw [pieces_of_some hsome]
    simp [hbar]
  | case5 linePos args b hcond length hsome hbar ih =>
    have hlt := lt_of_strchr hsome
    rw [strncmpEq_bar (Nat.le_of_lt hlt), Bool.not_eq_true', Bool.not_eq_false] at hbar
    have hlen : 0 < length := by
      rcases Nat.eq_zero_or_pos length with rfl | hpos
      · exact absurd hbar (by simp [isArg])
      · exact hpos
    rw [List.length_drop] at hlt
    rw [ih (.inr (by omega)), pieces_of_some hsome, List.drop_drop, ← Nat.add_assoc]
    simp [hbar]

/-- `separate_args` on a line that is not empty: the pieces up to the first that the pipe test takes for `|`. -/
theorem separateArgs_eq {line : CString} (h : line ≠ []) :
    separateArgs line = ((pieces line).takeWhile isArg, if (pieces line).all isArg then 0 else 1) :=
  separateArgsLoop_eq (.inl ⟨rfl, h⟩)

theorem separateArgs_nil : separateArgs [] = ([], 0) := by
  decide +kernel

/-! ## The two cuts -/

theorem filter_head_bar {ps : List CString} :
    ((ps.filter (· != [])).takeWhile (· != bar) = [] ∧ bar ∈ ps.filter (· != [])) ↔ ps.find? (· != []) = some bar := by
  rw [← List.head?_filter]
  cases ps.filter (· != []) with
  | nil => simp
  | cons w ws => by_cases hw : w = bar <;> simp [hw]

theorem tidy_empty_iff {ps : List CString} :
    (∀ pre post, [] :: ps = pre ++ [] :: post → bar ∈ pre ∨ post.find? (· != []) = some bar) ↔
      ps.find? (· != []) = some bar := by
  constructor
  · intro h
    rcases h [] ps rfl with hmem | hfind
    · cases hmem
    · exact hfind
  · intro h pre post heq
    cases pre with
    | nil =>
      obtain ⟨-, rfl⟩ := List.cons.inj heq
      exact .inr h
    | cons p pre =>
      obtain ⟨-, hps⟩ := List.cons.inj heq
      rw [show ps = pre ++ [] :: post from hps, List.find?_append] at h
      cases hpre : pre.find? (· != []) with
      | none =>
        rw [hpre] at h
        exact .inr (by simpa using h)
      | some w =>
        rw [hpre, Option.some_or] at h
        rw [Option.some.inj h] at hpre
        exact .inl (List.mem_cons_of_mem _ (List.mem_of_find?_eq_some hpre))

theorem pieces_agree_iff : ∀ ps : List CString,
    (ps.takeWhile isArg = (ps.filter (· != [])).takeWhile (· != bar) ∧
      ((if ps.all isArg then 0 else 1) = 1 ↔ bar ∈ ps.filter (· != []))) ↔
    ∀ pre post, ps = pre ++ [] :: post → bar ∈ pre ∨ post.find? (· != []) = some bar
  | [] => by simp
  | p :: ps => by
    by_cases hempty : p = []
    · subst hempty
      have htake : ([] :: ps).takeWhile isArg = [] := rfl
      have hfilter : ([] :: ps).filter (· != []) = ps.filter (· != []) := rfl
      have hall : ([] :: ps).all isArg = false := rfl
      rw [tidy_empty_iff, ← filter_head_bar, htake, hfilter, hall, eq_comm]
      simp
    · by_cases hbar : p = bar
      · subst hbar
        have hbar' : bar ≠ [] := by decide
        refine iff_of_true (by simp [isArg, hbar']) fun pre post heq => ?_
        cases pre with
        | nil => exact absurd (List.cons.inj heq).1 hbar'
        | cons q pre =>
          obtain ⟨rfl, -⟩ := List.cons.inj heq
          exact .inl List.mem_cons_self
      · have harg : isArg p = true := by simp [isArg, hempty, hbar]
        have ih := pieces_agree_iff ps
        have htidy : (∀ pre post, p :: ps = pre ++ [] :: post → bar ∈ pre ∨ post.find? (· != []) = some bar) ↔
            ∀ pre post, ps = pre ++ [] :: post → bar ∈ pre ∨ post.find? (· != []) = some bar := by
          constructor
          · intro h pre post heq
            rcases h (p :: pre) post (by rw [heq]; rfl) with hmem | hfind
            · exact .inl ((List.mem_cons.1 hmem).resolve_left fun h => hbar h.symm)
            · exact .inr hfind
          · intro h pre post heq
            cases pre with
            | nil => exact absurd (List.cons.inj heq).1 hempty
            | cons q pre =>
              obtain ⟨-, hps⟩ := List.cons.inj heq
              exact (h pre post hps).imp_left (List.mem_cons_of_mem q)
        rw [htidy, ← ih]
        simp [harg, hempty, hbar, Ne.symm hbar]

/-- **`separate_args` gives the words before the first `|`**, and 1 exactly where there is a word `|`, if and only if
the line is empty or tidy. -/
theorem separateArgs_words_iff (line : CString) :
    ((separateArgs line).1 = (words line).takeWhile (· != bar) ∧ ((separateArgs line).2 = 1 ↔ bar ∈ words line)) ↔
      line = [] ∨ Tidy line := by
  by_cases hnil : line = []
  · subst hnil
    rw [separateArgs_nil, words_eq]
    exact iff_of_true (by decide) (.inl rfl)
  · rw [separateArgs_eq hnil, words_eq, or_iff_right hnil]
    exact pieces_agree_iff (pieces line)

/-- **A trailing space passes for `|`**: `ls ` is taken for a command whose output goes to a pipe. -/
theorem trailing_space_is_a_pipe :
    ¬ ((separateArgs (str ['l', 's', ' '])).1 = (words (str ['l', 's', ' '])).takeWhile (· != bar) ∧
      ((separateArgs (str ['l', 's', ' '])).2 = 1 ↔ bar ∈ words (str ['l', 's', ' ']))) := by
  decide +kernel

end Shell
end Eltex
