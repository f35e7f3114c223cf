import Mathlib.Logic.Relation
import EltexTasks.ShellParse
import EltexTasks.ShellWords
/-!
# ShellLoop — the parse loop on any line

The first round has to give a word, otherwise `trim_line` starts before the line.  Every later round begins at a letter
or a digit, or at the NUL, so it makes progress; a round that ends at a separator leads to one more, and there is room
for ten (`safe_iff`).
-/
namespace Eltex
namespace Shell

open Relation (ReflTransGen)

/-- The next round of the parse loop, as the index in `command_arr` and the position of `line_iter`. -/
def NextRound (line : CString) (r t : Nat × Nat) : Prop :=
  t.1 = r.1 + 1 ∧ (separateArgs (line.drop r.2)).2 ≠ 0 ∧
    trimLine line r.2 (separateArgs (line.drop r.2)).1 = some t.2

/-- **Every round from `r` on** stores its command inside `command_arr`, and `trim_line` reads and returns positions of
the line; so there is no eleventh round. -/
def SafeFrom (line : CString) (r : Nat × Nat) : Prop :=
  ∀ t, ReflTransGen (NextRound line) r t →
    t.1 < commandArraySize ∧ ∃ pos ≤ line.length, trimLine line t.2 (separateArgs (line.drop t.2)).1 = some pos

/-- The parse loop on a line. -/
def Safe (line : CString) : Prop := SafeFrom line (0, 0)

/-- The line begins with a word other than `|`. -/
def BeginsWithWord (line : CString) : Prop := ∃ w ws, pieces line = w :: ws ∧ isArg w = true

/-- The separators (extra spaces and words `|`) with a letter or a digit between the one before and them. -/
def breaks : Bool → List CString → Nat
  | _, [] => 0
  | seen, p :: ps =>
    if isArg p then breaks (seen || p.any isalnum) ps else (if seen then 1 else 0) + breaks false ps

/-- The breaks of a line; its first separator is one of them. -/
def lineBreaks (line : CString) : Nat := breaks true (pieces line)

/-! ## One round -/

theorem trimLine_le {line : CString} {pos next : Nat} {args : List CString} (h : trimLine line pos args = some next) :
    next ≤ line.length := by
  unfold trimLine at h
  simp only at h
  split at h
  · cases h
  · rename_i hin
    rw [not_or] at hin
    have hskip := (List.takeWhile_sublist (fun b => !isalnum b)
      (l := line.drop ((pos : Int) + (args.map List.length).sum + args.length - 1).toNat)).length_le
    rw [List.length_drop] at hskip
    have := Option.some.inj h
    omega

theorem safeFrom_iff {line : CString} {k pos : Nat} :
    SafeFrom line (k, pos) ↔ k < commandArraySize ∧
      ∃ next, trimLine line pos (separateArgs (line.drop pos)).1 = some next ∧
        ((separateArgs (line.drop pos)).2 = 0 ∨ SafeFrom line (k + 1, next)) := by
  constructor
  · intro h
    obtain ⟨hk, next, -, htrim⟩ := h (k, pos) .refl
    refine ⟨hk, next, htrim, or_iff_not_imp_left.2 fun hret t ht => ?_⟩
    exact h t (.head ⟨rfl, hret, htrim⟩ ht)
  · rintro ⟨hk, next, htrim, hrest⟩ t ht
    rcases Relation.ReflTransGen.cases_head_iff.1 ht with rfl | ⟨r, ⟨hk', hret, htrim'⟩, hr⟩
    · exact ⟨hk, next, trimLine_le htrim, htrim⟩
    · have hr' : r = (k + 1, next) := Prod.ext hk' (Option.some.inj (htrim'.symm.trans htrim))
      exact hrest.resolve_left hret t (hr' ▸ hr)

/-- The loop goes through exactly when its rounds are safe. -/
theorem parseLoop_isSome_iff {line : CString} : ∀ (room k pos : Nat), k + room = commandArraySize →
    ((parseLoop line room k pos).isSome ↔ SafeFrom line (k, pos))
  | 0, k, pos, hk => by
    rw [safeFrom_iff]
    exact iff_of_false Bool.false_ne_true (fun h => by omega)
  | room + 1, k, pos, hk => by
    have ih : ∀ next, (parseLoop line room (k + 1) next).isSome ↔ SafeFrom line (k + 1, next) := fun next =>
      parseLoop_isSome_iff room (k + 1) next (by omega)
    rw [safeFrom_iff, parseLoop]
    cases htrim : trimLine line pos (separateArgs (line.drop pos)).1 with
    | none => simp [htrim]
    | some next =>
      simp only [htrim, Option.bind_some]
      by_cases hret : (separateArgs (line.drop pos)).2 = 0
      · simp [hret]; omega
      · simp [hret, ih]; omega

/-- `parseLine` gives commands for the safe lines, and only for them. -/
theorem parseLine_isSome_iff (line : CString) : (parseLine line).isSome ↔ Safe line :=
  parseLoop_isSome_iff commandArraySize 0 0 (Nat.zero_add _)

/-! ## The pieces of the rest -/

theorem joinWords_pieces (s : CString) : joinWords (pieces s) = s := by
  have hjoin : ∀ ws : List CString, joinWords ws = [space].intercalate ws := by
    intro ws
    induction ws with
    | nil => rfl
    | cons w ws ih =>
      cases ws with
      | nil => simp [joinWords]
      | cons v ws => rw [joinWords_cons (List.cons_ne_nil v ws), ih]; simp [List.intercalate]
  rw [hjoin]
  exact List.intercalate_splitOn space

theorem joinWords_append {ws vs : List CString} (hw : ws ≠ []) (hv : vs ≠ []) :
    joinWords (ws ++ vs) = joinWords ws ++ space :: joinWords vs := by
  induction ws with
  | nil => exact absurd rfl hw
  | cons w ws ih =>
    cases ws with
    | nil => exact joinWords_cons hv
    | cons u ws =>
      rw [List.cons_append, joinWords_cons (by simp), ih (List.cons_ne_nil u ws),
        joinWords_cons (List.cons_ne_nil u ws), List.append_assoc, List.cons_append]

theorem pieces_joinWords {ps : List CString} (h : ∀ p ∈ ps, space ∉ p) (hne : ps ≠ []) :
    pieces (joinWords ps) = ps := by
  induction ps with
  | nil => exact absurd rfl hne
  | cons p ps ih =>
    cases ps with
    | nil => exact List.splitOn_eq_singleton (h p List.mem_cons_self)
    | cons q ps =>
      rw [joinWords_cons (List.cons_ne_nil q ps), pieces_append_space (h p List.mem_cons_self),
        ih (fun r hr => h r (List.mem_cons_of_mem p hr)) (List.cons_ne_nil q ps)]

theorem pieces_cons_of_ne {b : Byte} (hb : b ≠ space) (s : CString) :
    ∃ p ps, pieces s = p :: ps ∧ pieces (b :: s) = (b :: p) :: ps := by
  obtain ⟨p, ps, hps⟩ := List.exists_cons_of_ne_nil (List.splitOn_ne_nil space s)
  refine ⟨p, ps, hps, ?_⟩
  rw [pieces, List.splitOn_cons_eq_if_modifyHead, if_neg (by simpa using hb), hps]
  rfl

theorem not_mem_pieces : ∀ s : CString, ∀ p ∈ pieces s, space ∉ p
  | [], p, hp => by
    obtain rfl := List.mem_singleton.1 hp
    exact List.not_mem_nil
  | b :: s, p, hp => by
    by_cases hb : b = space
    · rw [hb, pieces_cons_space] at hp
      rcases List.mem_cons.1 hp with rfl | hp
      · exact List.not_mem_nil
      · exact not_mem_pieces s p hp
    · obtain ⟨q, qs, hs, hbs⟩ := pieces_cons_of_ne hb s
      have ih := not_mem_pieces s
      rw [hs] at ih
      rw [hbs] at hp
      rcases List.mem_cons.1 hp with rfl | hp
      · intro hmem
        rcases List.mem_cons.1 hmem with h | h
        · exact hb h.symm
        · exact ih q List.mem_cons_self h
      · exact ih p (List.mem_cons_of_mem q hp)

/-! ## The breaks -/

theorem isArg_of_alnum {p : CString} (h : p.any isalnum = true) : isArg p = true := by
  have hne : p ≠ [] := by
    rintro rfl
    cases h
  have hbar : p ≠ bar := by
    rintro rfl
    exact absurd h (by decide)
  simp [isArg, hne, hbar]

/-- After a separator only the letters and digits of a piece count. -/
theorem breaks_false_cons (p : CString) (ps : List CString) :
    breaks false (p :: ps) = breaks (p.any isalnum) ps := by
  rw [breaks]
  by_cases hp : isArg p = true
  · rw [if_pos hp, Bool.false_or]
  · have hany : p.any isalnum = false := by
      rw [← Bool.not_eq_true]
      exact fun h => hp (isArg_of_alnum h)
    rw [if_neg hp, if_neg Bool.false_ne_true, hany, Nat.zero_add]

theorem breaks_isArg {ps : List CString} (h : ∀ p ∈ ps, isArg p = true) (seen : Bool) (qs : List CString) :
    breaks seen (ps ++ qs) = breaks (seen || ps.any (·.any isalnum)) qs := by
  induction ps generalizing seen with
  | nil => simp
  | cons p ps ih =>
    rw [List.cons_append, breaks, if_pos (h p List.mem_cons_self), ih (fun q hq => h q (List.mem_cons_of_mem p hq)),
      List.any_cons, Bool.or_assoc]

/-- **Going on to the next letter or digit** skips the separators that are no breaks. -/
theorem breaks_dropWhile : ∀ s : CString,
    breaks false (pieces s) =
      if s.dropWhile (fun b => !isalnum b) = [] then 0 else lineBreaks (s.dropWhile (fun b => !isalnum b))
  | [] => rfl
  | b :: s => by
    by_cases hb : isalnum b = true
    · -- the line goes on here
      have hspace : b ≠ space := by
        rintro rfl
        exact absurd hb (by decide)
      obtain ⟨p, ps, -, hbs⟩ := pieces_cons_of_ne hspace s
      have hany : (b :: p).any isalnum = true := by rw [List.any_cons, hb, Bool.true_or]
      rw [List.dropWhile_cons_of_neg (by simpa using hb), if_neg (List.cons_ne_nil b s), lineBreaks, hbs,
        breaks_false_cons, breaks, if_pos (isArg_of_alnum hany), hany, Bool.true_or]
    · have ih := breaks_dropWhile s
      rw [List.dropWhile_cons_of_pos (by simpa using hb), ← ih]
      by_cases hspace : b = space
      · rw [hspace, pieces_cons_space, breaks_false_cons]
        rfl
      · obtain ⟨p, ps, hs, hbs⟩ := pieces_cons_of_ne hspace s
        rw [hs, hbs, breaks_false_cons, breaks_false_cons, List.any_cons, Bool.eq_false_iff.2 hb, Bool.false_or]

/-! ## The rounds -/

theorem skip_space (s : CString) : skipped (space :: s) = skipped s + 1 ∧
    (space :: s).dropWhile (fun b => !isalnum b) = s.dropWhile (fun b => !isalnum b) := by
  have hspace : isalnum space = false := by decide
  constructor
  · simp only [skipped, List.takeWhile_cons, hspace, Bool.not_false, if_true, List.length_cons]
  · simp only [List.dropWhile_cons, hspace, Bool.not_false, if_true]

theorem ne_nil_of_beginsWithWord {s : CString} (h : BeginsWithWord s) : s ≠ [] := by
  obtain ⟨w, ws, hs, hw⟩ := h
  rintro rfl
  obtain ⟨rfl, -⟩ := List.cons.inj hs
  cases hw

theorem beginsWithWord_dropWhile {s : CString} (h : s.dropWhile (fun b => !isalnum b) ≠ []) :
    BeginsWithWord (s.dropWhile (fun b => !isalnum b)) := by
  obtain ⟨b, t, ht⟩ := List.exists_cons_of_ne_nil h
  have hb : isalnum b = true := by
    have := List.head?_dropWhile_not (fun b => !isalnum b) s
    rw [ht] at this
    simpa using this
  have hspace : b ≠ space := by
    rintro rfl
    exact absurd hb (by decide)
  obtain ⟨p, ps, -, hbs⟩ := pieces_cons_of_ne hspace t
  rw [ht]
  exact ⟨b :: p, ps, hbs, isArg_of_alnum (by rw [List.any_cons, hb, Bool.true_or])⟩

/-- A round whose pieces are all words is the last. -/
theorem round_last {line : CString} {pos : Nat} (h : BeginsWithWord (line.drop pos))
    (hall : (pieces (line.drop pos)).all isArg = true) :
    ∃ next, trimLine line pos (separateArgs (line.drop pos)).1 = some next ∧
      (separateArgs (line.drop pos)).2 = 0 ∧ lineBreaks (line.drop pos) = 0 := by
  have hne := ne_nil_of_beginsWithWord h
  have hargs : separateArgs (line.drop pos) = (pieces (line.drop pos), 0) := by
    rw [separateArgs_eq hne, hall, List.takeWhile_eq_self_iff.2 (List.all_eq_true.1 hall)]
    rfl
  have hpieces : pieces (line.drop pos) ≠ [] := List.splitOn_ne_nil _ _
  have hdrop : line.drop pos = joinWords (pieces (line.drop pos)) ++ [] := by
    rw [joinWords_pieces, List.append_nil]
  rw [hargs]
  refine ⟨_, trimLine_joinWords hpieces (Nat.le_of_lt (lt_of_drop rfl hne)) hdrop, rfl, ?_⟩
  have hbreaks := breaks_isArg (List.all_eq_true.1 hall) true []
  rwa [List.append_nil] at hbreaks

theorem exists_separator {ps : List CString} (hall : ps.all isArg = false) :
    ∃ q qs, ps = ps.takeWhile isArg ++ q :: qs ∧ isArg q = false := by
  have hsplit := List.takeWhile_append_dropWhile (p := isArg) (l := ps)
  cases hrest : ps.dropWhile isArg with
  | nil =>
    have hargs : ∀ p ∈ ps.takeWhile isArg, isArg p = true := fun p hp => List.mem_takeWhile_imp hp
    rw [hrest, List.append_nil] at hsplit
    rw [← hsplit, List.all_eq_true.2 hargs] at hall
    cases hall
  | cons q qs =>
    rw [hrest] at hsplit
    refine ⟨q, qs, hsplit.symm, ?_⟩
    have hhead := List.head?_dropWhile_not isArg ps
    rw [hrest] at hhead
    simpa using hhead

/-- A round that meets a separator is followed by one at the next letter or digit. -/
theorem round_break {line : CString} {pos : Nat} (h : BeginsWithWord (line.drop pos))
    (hall : (pieces (line.drop pos)).all isArg = false) :
    ∃ next, trimLine line pos (separateArgs (line.drop pos)).1 = some next ∧ 0 < next ∧
      (separateArgs (line.drop pos)).2 ≠ 0 ∧ (line.drop next ≠ [] → BeginsWithWord (line.drop next)) ∧
      lineBreaks (line.drop pos) = 1 + if line.drop next = [] then 0 else lineBreaks (line.drop next) := by
  have hne := ne_nil_of_beginsWithWord h
  obtain ⟨w, ws, hws, hw⟩ := h
  obtain ⟨q, qs, hsplit, hq⟩ := exists_separator hall
  have hargs : separateArgs (line.drop pos) = ((pieces (line.drop pos)).takeWhile isArg, 1) := by
    rw [separateArgs_eq hne, hall]
    rfl
  have hwords : (pieces (line.drop pos)).takeWhile isArg ≠ [] := by
    rw [hws, List.takeWhile_cons_of_pos hw]
    exact List.cons_ne_nil _ _
  have hmem : ∀ p ∈ (pieces (line.drop pos)).takeWhile isArg, isArg p = true := fun p hp => List.mem_takeWhile_imp hp
  rw [hargs]
  generalize (pieces (line.drop pos)).takeWhile isArg = args at hsplit hwords hmem
  have hdrop : line.drop pos = joinWords args ++ space :: joinWords (q :: qs) := by
    rw [← joinWords_append hwords (List.cons_ne_nil q qs), ← hsplit, joinWords_pieces]
  have hnext : line.drop (pos + (joinWords args).length + skipped (space :: joinWords (q :: qs))) =
      (joinWords (q :: qs)).dropWhile (fun b => !isalnum b) := by
    rw [Nat.add_assoc, ← List.drop_drop, hdrop, ← List.drop_drop, List.drop_left, drop_skipped, (skip_space _).2]
  refine ⟨_, trimLine_joinWords hwords (Nat.le_of_lt (lt_of_drop rfl hne)) hdrop, ?_, Nat.one_ne_zero,
    fun hne => hnext ▸ beginsWithWord_dropWhile (hnext ▸ hne), ?_⟩
  · rw [(skip_space _).1]
    omega
  · have hany : q.any isalnum = false := by
      rw [← Bool.not_eq_true]
      intro h
      rw [isArg_of_alnum h] at hq
      cases hq
    have hq' : ∀ p ∈ q :: qs, space ∉ p := fun p hp =>
      not_mem_pieces (line.drop pos) p (hsplit ▸ List.mem_append_right _ hp)
    rw [hnext, ← breaks_dropWhile, pieces_joinWords hq' (List.cons_ne_nil q qs), lineBreaks, hsplit,
      breaks_isArg hmem, Bool.true_or, breaks, if_neg (by rw [hq]; decide), if_pos rfl, breaks_false_cons, hany]

/-- At the NUL the loop ends with an empty command. -/
theorem safeFrom_nul {line : CString} {k pos : Nat} (hdrop : line.drop pos = []) (hpos : 0 < pos)
    (hle : pos ≤ line.length) : SafeFrom line (k, pos) ↔ k < commandArraySize := by
  have htrim : ∃ next, trimLine line pos [] = some next := by
    unfold trimLine
    refine ⟨_, if_neg ?_⟩
    simp only [List.map_nil, List.sum_nil, List.length_nil]
    omega
  rw [safeFrom_iff, hdrop, separateArgs_nil]
  obtain ⟨next, hnext⟩ := htrim
  exact and_iff_left ⟨next, hnext, .inl rfl⟩

/-- Rounds that begin with a word need one place each, one for every break and the last. -/
theorem safeFrom_word {line : CString} : ∀ (room k pos : Nat), k + room = commandArraySize →
    BeginsWithWord (line.drop pos) → (SafeFrom line (k, pos) ↔ lineBreaks (line.drop pos) < room)
  | 0, k, pos, hk, _ => by
    rw [safeFrom_iff]
    exact iff_of_false (fun h => by omega) (Nat.not_lt_zero _)
  | room + 1, k, pos, hk, hword => by
    have hk' : k < commandArraySize := by omega
    rw [safeFrom_iff, and_iff_right hk']
    cases hall : (pieces (line.drop pos)).all isArg with
    | true =>
      obtain ⟨next, htrim, hret, hbreaks⟩ := round_last hword hall
      exact iff_of_true ⟨next, htrim, .inl hret⟩ (by omega)
    | false =>
      obtain ⟨next, htrim, hpos, hret, hnext, hbreaks⟩ := round_break hword hall
      have hrest : (∃ n, trimLine line pos (separateArgs (line.drop pos)).1 = some n ∧
          ((separateArgs (line.drop pos)).2 = 0 ∨ SafeFrom line (k + 1, n))) ↔ SafeFrom line (k + 1, next) := by
        rw [htrim]
        simp [hret]
      rw [hrest, hbreaks]
      by_cases hdrop : line.drop next = []
      · rw [safeFrom_nul hdrop hpos (trimLine_le htrim), if_pos hdrop]
        omega
      · rw [safeFrom_word room (k + 1) next (by omega) (hnext hdrop), if_neg hdrop]
        omega

/-- **The parse loop is safe and ends** exactly on the lines that begin with a word other than `|` and have fewer breaks
than there are places for commands. -/
theorem safe_iff (line : CString) : Safe line ↔ BeginsWithWord line ∧ lineBreaks line < commandArraySize := by
  by_cases hword : BeginsWithWord line
  · rw [and_iff_right hword]
    exact safeFrom_word commandArraySize 0 0 (Nat.zero_add _) hword
  · have hargs : (separateArgs line).1 = [] := by
      by_cases hnil : line = []
      · rw [hnil, separateArgs_nil]
      · obtain ⟨p, ps, hps⟩ := List.exists_cons_of_ne_nil (List.splitOn_ne_nil space line)
        have hp : ¬ isArg p = true := fun hp => hword ⟨p, ps, hps, hp⟩
        rw [separateArgs_eq hnil, pieces, hps]
        exact List.takeWhile_cons_of_neg hp
    refine iff_of_false (fun hsafe => ?_) (fun h => hword h.1)
    obtain ⟨-, next, htrim, -⟩ := safeFrom_iff.1 hsafe
    rw [List.drop_zero, hargs] at htrim
    cases htrim

/-- **The empty line**: `trim_line` starts at the byte before it. -/
theorem empty_line_unsafe : ¬ Safe [] := by
  intro hsafe
  have hnone : trimLine [] 0 (separateArgs []).1 = none := by decide +kernel
  obtain ⟨-, pos, -, htrim⟩ := hsafe (0, 0) .refl
  exact absurd (hnone.symm.trans htrim) nofun

end Shell
end Eltex
