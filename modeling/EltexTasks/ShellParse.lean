import Mathlib.Data.List.Basic
import EltexTasks.Shell
/-!
# ShellParse — parsing a printed pipeline

A pipeline is printed with one space between words and ` | ` between commands.  `separate_args` reads a printed command
back word by word (`separateArgsLoop_joinWords`), `trim_line` goes on to the next letter or digit and so to
the next command exactly when that begins with one (`parseLoop_iff`).
-/
namespace Eltex
namespace Shell

/-- A word of a command. -/
structure IsWord (w : CString) : Prop where
  nonempty : w ≠ []
  noSpace : space ∉ w
  noNewline : newline ∉ w
  noNul : 0 ∉ w
  notBar : w ≠ bar

instance (w : CString) : Decidable (IsWord w) :=
  decidable_of_iff (w ≠ [] ∧ space ∉ w ∧ newline ∉ w ∧ 0 ∉ w ∧ w ≠ bar)
    ⟨fun ⟨h₁, h₂, h₃, h₄, h₅⟩ => ⟨h₁, h₂, h₃, h₄, h₅⟩, fun ⟨h₁, h₂, h₃, h₄, h₅⟩ => ⟨h₁, h₂, h₃, h₄, h₅⟩⟩

def joinWords : List CString → CString
  | [] => []
  | [w] => w
  | w :: ws => w ++ space :: joinWords ws

/-- `" | "` -/
def separator : CString := [space, chr '|', space]

def pipelineText : List (List CString) → CString
  | [] => []
  | [c] => joinWords c
  | c :: cs => joinWords c ++ separator ++ pipelineText cs

/-- A pipeline the user can type: 1 to 10 commands of at least one word each, in at most 999 characters. -/
structure Pipeline where
  commands : List (List CString)
  some_command : commands ≠ []
  few_commands : commands.length ≤ commandArraySize
  some_word : ∀ c ∈ commands, c ≠ []
  words : ∀ c ∈ commands, ∀ w ∈ c, IsWord w
  fits : (pipelineText commands).length ≤ 999

/-- The commands of a pipeline from the `i`-th on, with the flags they are to have. -/
def expected : Nat → List (List CString) → List ShellCommand
  | _, [] => []
  | i, [c] => [⟨c, if i = 0 then .stIn else .prevPipe, .stOut⟩]
  | i, c :: cs => ⟨c, if i = 0 then .stIn else .prevPipe, .toPipe⟩ :: expected (i + 1) cs

/-- The command begins with a letter or a digit. -/
def startsAlnum (c : List CString) : Prop := ∃ b, (joinWords c).head? = some b ∧ isalnum b = true

/-! ## `separate_args` -/

/-- While `line_pos` is before the NUL the odd condition of the loop holds. -/
theorem exists_cond {line : CString} {linePos : Nat} (h : linePos < line.length) :
    ∃ b, (line)[if linePos ≠ 0 then 1 else 0]? = some b := by
  refine ⟨_, List.getElem?_eq_getElem ?_⟩
  split <;> omega

theorem bar_test {w s : CString} (hw : w ≠ []) (hb : w ≠ bar) : strncmpEq bar (w ++ s) w.length = false := by
  unfold strncmpEq
  rw [List.take_left]
  have hlen : bar.length ≤ w.length := List.length_pos_of_ne_nil hw
  rw [List.take_of_length_le hlen]
  exact beq_eq_false_iff_ne.2 (Ne.symm hb)

theorem lt_of_drop {line s : CString} {linePos : Nat} (hdrop : line.drop linePos = s) (hs : s ≠ []) :
    linePos < line.length := by
  by_contra hge
  exact hs (hdrop ▸ List.drop_eq_nil_of_le (Nat.le_of_not_lt hge))

/-- A round of the loop at a word that a space ends. -/
theorem separateArgsLoop_space {line w s : CString} {linePos : Nat} (args : List CString)
    (hdrop : line.drop linePos = w ++ space :: s) (hw : space ∉ w) :
    separateArgsLoop line linePos args =
      if strncmpEq bar (w ++ space :: s) w.length then (args, 1)
      else separateArgsLoop line (linePos + w.length + 1) (args ++ [w]) := by
  obtain ⟨b, hcond⟩ := exists_cond (lt_of_drop hdrop (by simp))
  have hstrchr := strchr_append (s := s) hw
  rw [separateArgsLoop, hcond]
  simp only
  split
  · rename_i hnone
    rw [hdrop, hstrchr] at hnone
    cases hnone
  · rename_i n hsome
    rw [hdrop, hstrchr] at hsome
    obtain rfl := Option.some.inj hsome
    rw [hdrop, List.take_left]

theorem separateArgsLoop_word {line w s : CString} {linePos : Nat} {args : List CString}
    (hdrop : line.drop linePos = w ++ space :: s) (hw : IsWord w) :
    separateArgsLoop line linePos args = separateArgsLoop line (linePos + w.length + 1) (args ++ [w]) := by
  rw [separateArgsLoop_space args hdrop hw.noSpace, bar_test hw.nonempty hw.notBar, if_neg Bool.false_ne_true]

theorem separateArgsLoop_bar {line s : CString} {linePos : Nat} {args : List CString}
    (hdrop : line.drop linePos = bar ++ space :: s) : separateArgsLoop line linePos args = (args, 1) := by
  have htest : strncmpEq bar (bar ++ space :: s) bar.length = true := by
    unfold strncmpEq
    rw [List.take_left, List.take_length]
    exact beq_self_eq_true bar
  rw [separateArgsLoop_space args hdrop (by decide), if_pos htest]

theorem separateArgsLoop_last {line w : CString} {linePos : Nat} {args : List CString}
    (hdrop : line.drop linePos = w) (hw : IsWord w) :
    separateArgsLoop line linePos args = (args ++ [w], 0) := by
  obtain ⟨b, hcond⟩ := exists_cond (lt_of_drop hdrop hw.nonempty)
  have hnone := strchr_eq_none hw.noSpace
  rw [separateArgsLoop, hcond]
  simp only
  split
  · have htest := bar_test (s := []) hw.nonempty hw.notBar
    rw [List.append_nil] at htest
    rw [hdrop, htest, if_neg Bool.false_ne_true, List.take_length]
  · rename_i n hsome
    rw [hdrop, hnone] at hsome
    cases hsome

theorem joinWords_cons {w : CString} {ws : List CString} (h : ws ≠ []) :
    joinWords (w :: ws) = w ++ space :: joinWords ws := by
  cases ws with
  | nil => exact absurd rfl h
  | cons _ _ => rfl

theorem drop_word {line w s : CString} {linePos : Nat} (hdrop : line.drop linePos = w ++ space :: s) :
    line.drop (linePos + w.length + 1) = s := by
  rw [Nat.add_assoc, ← List.drop_drop, hdrop, List.drop_append]
  simp

theorem separateArgsLoop_joinWords {line : CString} : ∀ (c : List CString) (linePos : Nat) (args : List CString),
    c ≠ [] → (∀ w ∈ c, IsWord w) → line.drop linePos = joinWords c → separateArgsLoop line linePos args = (args ++ c, 0)
  | [], _, _, hne, _, _ => absurd rfl hne
  | [w], _, _, _, hw, hdrop => separateArgsLoop_last hdrop (hw w List.mem_cons_self)
  | w :: v :: ws, linePos, args, _, hw, hdrop => by
    rw [joinWords_cons (List.cons_ne_nil v ws)] at hdrop
    have hrest := separateArgsLoop_joinWords (v :: ws) (linePos + w.length + 1) (args ++ [w]) (List.cons_ne_nil v ws)
      (fun u hu => hw u (List.mem_cons_of_mem w hu)) (drop_word hdrop)
    rw [separateArgsLoop_word hdrop (hw w List.mem_cons_self), hrest, List.append_assoc]
    rfl

theorem separateArgsLoop_separator {line s : CString} : ∀ (c : List CString) (linePos : Nat) (args : List CString),
    c ≠ [] → (∀ w ∈ c, IsWord w) → line.drop linePos = joinWords c ++ separator ++ s →
    separateArgsLoop line linePos args = (args ++ c, 1)
  | [], _, _, hne, _, _ => absurd rfl hne
  | [w], linePos, args, _, hw, hdrop => by
    have hdrop : line.drop linePos = w ++ space :: (bar ++ space :: s) := by
      rw [hdrop, List.append_assoc]
      rfl
    rw [separateArgsLoop_word hdrop (hw w List.mem_cons_self), separateArgsLoop_bar (drop_word hdrop)]
  | w :: v :: ws, linePos, args, _, hw, hdrop => by
    rw [joinWords_cons (List.cons_ne_nil v ws), List.append_assoc, List.append_assoc, List.cons_append,
      ← List.append_assoc] at hdrop
    have hrest := separateArgsLoop_separator (v :: ws) (linePos + w.length + 1) (args ++ [w]) (List.cons_ne_nil v ws)
      (fun u hu => hw u (List.mem_cons_of_mem w hu)) (drop_word hdrop)
    rw [separateArgsLoop_word hdrop (hw w List.mem_cons_self), hrest, List.append_assoc]
    rfl

/-! ## `trim_line` -/

theorem length_joinWords : ∀ {c : List CString}, c ≠ [] →
    (joinWords c).length + 1 = (c.map List.length).sum + c.length
  | [], h => absurd rfl h
  | [w], _ => by simp [joinWords]
  | w :: v :: ws, _ => by
    have ih := length_joinWords (List.cons_ne_nil v ws)
    rw [joinWords_cons (List.cons_ne_nil v ws), List.length_append, List.length_cons, List.map_cons, List.sum_cons,
      List.length_cons]
    omega

/-- The number of bytes `trim_line` skips at the beginning of `s`. -/
def skipped (s : CString) : Nat := (s.takeWhile (fun b => !isalnum b)).length

theorem trimLine_joinWords {line s : CString} {pos : Nat} {c : List CString} (hc : c ≠ []) (hpos : pos ≤ line.length)
    (hdrop : line.drop pos = joinWords c ++ s) :
    trimLine line pos c = some (pos + (joinWords c).length + skipped s) := by
  have hlen := length_joinWords hc
  have hstart : ((pos : Int) + (c.map List.length).sum + c.length - 1) = (pos + (joinWords c).length : Nat) := by omega
  have hle : pos + (joinWords c).length ≤ line.length := by
    have := congrArg List.length hdrop
    rw [List.length_drop, List.length_append] at this
    omega
  have hrest : line.drop (pos + (joinWords c).length) = s := by
    rw [← List.drop_drop, hdrop, List.drop_left]
  unfold trimLine
  rw [hstart]
  simp only
  rw [if_neg (by omega), Int.toNat_natCast, hrest]
  rfl

theorem skipped_separator (s : CString) : skipped (separator ++ s) = 3 + skipped s := by
  have hspace : isalnum space = false := by decide
  have hbar : isalnum (chr '|') = false := by decide
  simp only [skipped, separator, List.cons_append, List.nil_append, List.takeWhile_cons, hspace, hbar, Bool.not_false,
    if_true, List.length_cons]
  omega

theorem drop_skipped (s : CString) : s.drop (skipped s) = s.dropWhile (fun b => !isalnum b) := by
  have h := List.takeWhile_append_dropWhile (p := fun b => !isalnum b) (l := s)
  have hdrop := congrArg (List.drop (skipped s)) h
  rw [skipped, List.drop_left] at hdrop
  exact hdrop.symm

theorem skipped_eq_zero {s : CString} {b : Byte} (h : s.head? = some b) (hb : isalnum b = true) : skipped s = 0 := by
  cases s with
  | nil => cases h
  | cons a s =>
    obtain rfl := Option.some.inj h
    simp [skipped, hb]

/-! ## The first word is where the reading began -/

theorem separateArgsLoop_prefix (line : CString) (linePos : Nat) (args : List CString) :
    ∃ more, (separateArgsLoop line linePos args).1 = args ++ more := by
  fun_induction separateArgsLoop line linePos args with
  | case1 => exact ⟨[], (List.append_nil _).symm⟩
  | case2 => exact ⟨[], (List.append_nil _).symm⟩
  | case3 => exact ⟨_, rfl⟩
  | case4 => exact ⟨[], (List.append_nil _).symm⟩
  | case5 linePos args _ _ _ _ _ ih =>
    obtain ⟨more, hmore⟩ := ih
    exact ⟨_, by rw [hmore, List.append_assoc]⟩

theorem head_of_separateArgs {s w : CString} {ws : List CString} (h : (separateArgs s).1 = w :: ws) :
    w.head? = s.head? := by
  unfold separateArgs at h
  rw [separateArgsLoop] at h
  simp only [List.drop_zero, List.nil_append] at h
  split at h
  · cases h
  · split at h
    · split at h
      · cases h
      · rw [List.take_length] at h
        cases h; rfl
    · rename_i n _
      split at h
      · cases h
      · rename_i hbar
        obtain ⟨more, hmore⟩ := separateArgsLoop_prefix s (0 + n + 1) [s.take n]
        rw [hmore] at h
        cases h
        -- an empty word passes for `|`
        have hn : n ≠ 0 := by
          rintro rfl
          exact hbar rfl
        rw [List.head?_take, if_neg hn]

theorem parseLoop_head {line : CString} {room commandCount pos : Nat} {command : ShellCommand}
    {commands : List ShellCommand} (h : parseLoop line room commandCount pos = some (command :: commands)) :
    command.args = (separateArgs (line.drop pos)).1 := by
  cases room with
  | zero => cases h
  | succ room =>
    rw [parseLoop] at h
    obtain ⟨next, -, hnext⟩ := Option.bind_eq_some_iff.1 h
    split at hnext
    · cases hnext; rfl
    · obtain ⟨_, -, hcons⟩ := Option.map_eq_some_iff.1 hnext
      cases hcons; rfl

/-! ## The parse loop -/

theorem pipelineText_cons {c : List CString} {cs : List (List CString)} (h : cs ≠ []) :
    pipelineText (c :: cs) = joinWords c ++ (separator ++ pipelineText cs) := by
  cases cs with
  | nil => exact absurd rfl h
  | cons _ _ => exact List.append_assoc _ _ _

theorem head_joinWords {w : CString} (ws : List CString) (hw : w ≠ []) : (joinWords (w :: ws)).head? = w.head? := by
  cases ws with
  | nil => rfl
  | cons v ws => exact List.head?_append_of_ne_nil _ hw

theorem head_pipelineText {c : List CString} (cs : List (List CString)) (hc : joinWords c ≠ []) :
    (pipelineText (c :: cs)).head? = (joinWords c).head? := by
  cases cs with
  | nil => rfl
  | cons d cs =>
    rw [pipelineText_cons (List.cons_ne_nil d cs)]
    exact List.head?_append_of_ne_nil _ hc

theorem joinWords_ne_nil {c : List CString} (hc : c ≠ []) (hw : ∀ w ∈ c, IsWord w) : joinWords c ≠ [] := by
  cases c with
  | nil => exact absurd rfl hc
  | cons w ws =>
    have hne := (hw w List.mem_cons_self).nonempty
    intro h
    have hhead := head_joinWords ws hne
    rw [h] at hhead
    exact hne (List.head?_eq_none_iff.1 hhead.symm)

theorem expected_head (i : Nat) (c : List CString) (cs : List (List CString)) :
    ∃ command commands, expected i (c :: cs) = command :: commands ∧ command.args = c := by
  cases cs with
  | nil => exact ⟨_, _, rfl, rfl⟩
  | cons _ _ => exact ⟨_, _, rfl, rfl⟩

/-- Reading a command after `trim_line` gives one that begins with a letter or a digit. -/
theorem startsAlnum_of_parseLoop {line s : CString} {room i pos : Nat} {c : List CString} {cs : List (List CString)}
    (hc : c ≠ []) (hw : ∀ w ∈ c, IsWord w) (hdrop : line.drop pos = s.dropWhile (fun b => !isalnum b))
    (hparse : parseLoop line room i pos = some (expected i (c :: cs))) : startsAlnum c := by
  obtain ⟨command, commands, hexp, rfl⟩ := expected_head i c cs
  rw [hexp] at hparse
  have hargs := parseLoop_head hparse
  cases hws : command.args with
  | nil => exact absurd hws hc
  | cons w ws =>
    have hne : w ≠ [] := (hw w (by rw [hws]; exact List.mem_cons_self)).nonempty
    have hhead := head_of_separateArgs (hargs.symm.trans hws)
    rw [hdrop] at hhead
    obtain ⟨b, w', rfl⟩ := List.exists_cons_of_ne_nil hne
    refine ⟨b, head_joinWords ws hne, ?_⟩
    have hfirst := List.head?_dropWhile_not (fun b => !isalnum b) s
    rw [← hhead] at hfirst
    simpa using hfirst

theorem parseLoop_iff {line : CString} : ∀ (cs : List (List CString)) (room i pos : Nat), cs ≠ [] →
    cs.length ≤ room → (∀ c ∈ cs, c ≠ []) → (∀ c ∈ cs, ∀ w ∈ c, IsWord w) → line.drop pos = pipelineText cs →
    (parseLoop line room i pos = some (expected i cs) ↔ ∀ c ∈ cs.tail, startsAlnum c)
  | [], _, _, _, hne, _, _, _, _ => absurd rfl hne
  | c :: cs, 0, _, _, _, hroom, _, _, _ => absurd hroom (Nat.not_succ_le_zero _)
  | c :: cs, room + 1, i, pos, _, hroom, hsome, hwords, hdrop => by
    have hc := hsome c List.mem_cons_self
    have hw := hwords c List.mem_cons_self
    have hpos : pos ≤ line.length := by
      by_contra hlt
      rw [List.drop_eq_nil_of_le (by omega)] at hdrop
      have hhead := head_pipelineText cs (joinWords_ne_nil hc hw)
      rw [← hdrop] at hhead
      exact joinWords_ne_nil hc hw (List.head?_eq_none_iff.1 hhead.symm)
    rcases cs with _ | ⟨d, cs⟩
    · -- the last command
      have hargs : separateArgs (line.drop pos) = (c, 0) :=
        separateArgsLoop_joinWords c 0 [] hc hw (by rw [List.drop_zero, hdrop]; rfl)
      have htrim := trimLine_joinWords (s := []) hc hpos (by rw [hdrop, List.append_nil]; rfl)
      rw [parseLoop, hargs]
      simp only [htrim, Option.bind_some, if_true, List.tail_cons]
      exact ⟨fun _ _ h => (nomatch h), fun _ => rfl⟩
    · have hdrop := hdrop.trans (pipelineText_cons (List.cons_ne_nil d cs))
      have hd := hsome d (by simp)
      have hwd := hwords d (by simp)
      have hargs : separateArgs (line.drop pos) = (c, 1) :=
        separateArgsLoop_separator c 0 [] hc hw (by rw [List.drop_zero, hdrop, List.append_assoc])
      have htrim := trimLine_joinWords hc hpos hdrop
      rw [skipped_separator] at htrim
      rw [parseLoop, hargs]
      simp only [htrim, Option.bind_some, Nat.one_ne_zero, if_false, List.tail_cons, expected,
        Option.map_eq_some_iff]
      have hnext : line.drop (pos + (joinWords c).length + 3) = pipelineText (d :: cs) := by
        rw [Nat.add_assoc, ← List.drop_drop, hdrop, ← List.drop_drop, List.drop_left]
        rfl
      -- the next command is met at its first byte
      have ih : startsAlnum d →
          (parseLoop line room (i + 1) (pos + (joinWords c).length + (3 + skipped (pipelineText (d :: cs)))) =
            some (expected (i + 1) (d :: cs)) ↔ ∀ e ∈ cs, startsAlnum e) := by
        rintro ⟨b, hb, halnum⟩
        have hhead := head_pipelineText cs (joinWords_ne_nil hd hwd)
        rw [skipped_eq_zero (hhead.trans hb) halnum]
        exact parseLoop_iff (d :: cs) room (i + 1) _ (List.cons_ne_nil d cs) (Nat.le_of_succ_le_succ hroom)
          (fun e he => hsome e (List.mem_cons_of_mem c he)) (fun e he => hwords e (List.mem_cons_of_mem c he)) hnext
      constructor
      · rintro ⟨commands, hparse, hcons⟩
        obtain ⟨-, rfl⟩ := List.cons.inj hcons
        have hstart : startsAlnum d := by
          apply startsAlnum_of_parseLoop (s := pipelineText (d :: cs)) hd hwd _ hparse
          rw [← Nat.add_assoc, ← List.drop_drop, hnext, drop_skipped]
        intro e he
        rcases List.mem_cons.1 he with rfl | he
        · exact hstart
        · exact (ih hstart).1 hparse e he
      · intro hall
        have hstart := hall d List.mem_cons_self
        exact ⟨_, (ih hstart).2 fun e he => hall e (List.mem_cons_of_mem d he), rfl⟩

/-- `trim_line` goes to the next letter or digit, so a pipeline comes back from its text **exactly when every command
after the first begins with a letter or a digit.** -/
theorem parse_iff_startsAlnum (p : Pipeline) :
    parseLine (pipelineText p.commands) = some (expected 0 p.commands) ↔ ∀ c ∈ p.commands.tail, startsAlnum c :=
  parseLoop_iff p.commands commandArraySize 0 0 p.some_command p.few_commands p.some_word p.words (List.drop_zero)

/-! ## The typed line -/

/-- `ls | ./a` -/
def dotSlash : Pipeline where
  commands := [[str ['l', 's']], [str ['.', '/', 'a']]]
  some_command := by decide
  few_commands := by decide
  some_word := by decide
  words := by decide
  fits := by decide

/-- The second command of `ls | ./a` is run as `a`. -/
theorem path_loses_its_dot :
    parseLine (pipelineText dotSlash.commands) =
      some [⟨[str ['l', 's']], .stIn, .toPipe⟩, ⟨[str ['a']], .prevPipe, .stOut⟩] ∧
    parseLine (pipelineText dotSlash.commands) ≠ some (expected 0 dotSlash.commands) := by
  decide +kernel

end Shell
end Eltex
