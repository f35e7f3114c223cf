import EltexTasks.Shell
/-!
# ShellInput — the lines the shell reads

`fgets` delivers at most `line_max - 1` bytes at a time, and `shell_start` takes the last byte of each delivery for a
newline and overwrites it.  That is the line only where the newline is among them: a longer line is cut, and an input
that does not end with a newline loses a character (`readStrings_iff`).

The programs share the input with the shell, which waits for them.  One may read from it or never end, and a command
that cannot be run ends in `exit(1)`, which moves an input that can be moved back to the end of its line: what the round
of a line makes of the input is the parameter `body`, and `LeavesInput` says that it ends and makes nothing of it.
-/
namespace Eltex
namespace Shell

def quitShell : CString := str ['q', 'u', 'i', 't', '_', 's', 'h', 'e', 'l', 'l']

/-- The lines of an input that end with a newline, without it. -/
def terminatedLines (stdin : List Byte) : List CString := (stdin.splitOn newline).dropLast

/-- What follows the last newline. -/
def lastLine (stdin : List Byte) : CString := (stdin.splitOn newline).getLast?.getD []

/-- The lines of an input; the last of them may lack its newline. -/
def inputLines (stdin : List Byte) : List CString :=
  terminatedLines stdin ++ if lastLine stdin = [] then [] else [lastLine stdin]

/-- The lines up to the first `quit_shell`. -/
def upToQuit : List CString → List CString
  | [] => []
  | l :: ls => if l = quitShell then [l] else l :: upToQuit ls

theorem readLine_lt {stdin rest : List Byte} {line : CString} (h : readLine stdin = some (line, rest)) :
    rest.length < stdin.length := by
  unfold readLine at h
  obtain ⟨⟨bytes, rest'⟩, hfgets, hpair⟩ := Option.map_eq_some_iff.1 h
  obtain ⟨-, rfl⟩ := Prod.mk.inj hpair
  obtain ⟨rfl, hne⟩ := append_of_fgets (by decide) hfgets
  have hpos := List.length_pos_iff.2 hne
  rw [List.length_append]
  omega

theorem suffix_of_readLine {stdin rest : List Byte} {line : CString} (h : readLine stdin = some (line, rest)) :
    rest <:+ stdin := by
  obtain ⟨⟨bytes, rest'⟩, hfgets, hpair⟩ := Option.map_eq_some_iff.1 h
  obtain ⟨-, rfl⟩ := Prod.mk.inj hpair
  obtain ⟨rfl, -⟩ := append_of_fgets (by decide) hfgets
  exact List.suffix_append bytes rest'

/-- **The first `n` strings `shell_start` passes to its quit test**, fewer where it ends before: `quit_shell` is the
last, and at the end of the input it exits.  `body k` is what the rest of round `k`, with the programs it runs, makes of
the input behind the line; `none` is a round that does not end. -/
def readStrings : Nat → (Nat → List Byte → Option (List Byte)) → List Byte → List CString
  | 0, _, _ => []
  | n + 1, body, stdin =>
    match readLine stdin with
    | none => []
    | some (line, rest) =>
      if line = quitShell then [line]
      else
        line :: match body 0 rest with
          | none => []
          | some unread => readStrings n (fun k => body (k + 1)) unread

/-- The programs end and leave what is to be read of the input where it is. -/
def LeavesInput (body : Nat → List Byte → Option (List Byte)) (stdin : List Byte) : Prop :=
  ∀ k rest, rest <:+ stdin → body k rest = some rest

/-- **The shell works on the lines of its input**: they are the strings it passes to its quit test, and no others. -/
def PassesLines (body : Nat → List Byte → Option (List Byte)) (stdin : List Byte) : Prop :=
  ∀ n, readStrings n body stdin = (upToQuit (inputLines stdin)).take n

/-- The strings of an input that the shell alone reads. -/
def chunkStrings (stdin : List Byte) : List CString :=
  match _h : readLine stdin with
  | none => []
  | some (line, rest) => if line = quitShell then [line] else line :: chunkStrings rest
termination_by stdin.length
decreasing_by exact readLine_lt _h

/-! ## One call of `fgets` -/

theorem chunkStrings_of_none {stdin : List Byte} (h : readLine stdin = none) : chunkStrings stdin = [] := by
  rw [chunkStrings]
  split
  · rfl
  · rename_i hsome
    cases h.symm.trans hsome

theorem chunkStrings_of_readLine {stdin rest : List Byte} {line : CString} (h : readLine stdin = some (line, rest)) :
    chunkStrings stdin = if line = quitShell then [line] else line :: chunkStrings rest := by
  rw [chunkStrings]
  split
  · rename_i hnone
    rw [h] at hnone
    cases hnone
  · rename_i line' rest' hsome
    rw [h] at hsome
    obtain ⟨rfl, rfl⟩ := Prod.mk.inj (Option.some.inj hsome)
    rfl

/-- Where the programs leave the input alone the shell reads what it would read alone. -/
theorem readStrings_of_leaves : ∀ (n : Nat) {body : Nat → List Byte → Option (List Byte)} {stdin : List Byte},
    LeavesInput body stdin → readStrings n body stdin = (chunkStrings stdin).take n
  | 0, _, _, _ => rfl
  | n + 1, body, stdin, hbody => by
    cases hread : readLine stdin with
    | none =>
      rw [readStrings, hread, chunkStrings_of_none hread]
      rfl
    | some read =>
      obtain ⟨line, rest⟩ := read
      have hsuffix := suffix_of_readLine hread
      have hrest : LeavesInput (fun k => body (k + 1)) rest := fun k unread hunread =>
        hbody (k + 1) unread (hunread.trans hsuffix)
      rw [readStrings, hread, chunkStrings_of_readLine hread]
      simp only [hbody 0 rest hsuffix, readStrings_of_leaves n hrest]
      by_cases hquit : line = quitShell
      · rw [if_pos hquit, if_pos hquit, List.take_succ_cons, List.take_nil]
      · rw [if_neg hquit, if_neg hquit, List.take_succ_cons]

/-- Where no newline comes in time the last byte of what is delivered is lost. -/
theorem readLine_cut {stdin bytes rest : List Byte} (h0 : 0 ∉ stdin)
    (h : fgets lineMax stdin = some (bytes, rest)) : readLine stdin = some (bytes.dropLast, rest) := by
  obtain ⟨hsplit, -⟩ := append_of_fgets (by decide) h
  have hcstr : cstr bytes = bytes := cstr_eq_self fun hmem => h0 (hsplit ▸ List.mem_append_left rest hmem)
  rw [readLine, h, Option.map_some]
  simp only [hcstr]

/-- An input without a newline, or with a line too long, is cut. -/
theorem exists_readLine {stdin : List Byte} (h0 : 0 ∉ stdin) (hne : stdin ≠ [])
    (hlong : ∀ n, strchr stdin newline = some n → 999 < n) :
    ∃ line rest, readLine stdin = some (line, rest) ∧ line.length ≤ 999 ∧ line.length < stdin.length := by
  have hpos := List.length_pos_iff.2 hne
  by_cases hlen : stdin.length ≤ 1000
  · -- the end of the input comes first
    have hnl : newline ∉ stdin := by
      cases hidx : strchr stdin newline with
      | none => exact List.idxOf?_eq_none_iff.1 hidx
      | some n =>
        have := hlong n hidx
        have := lt_of_strchr hidx
        omega
    refine ⟨_, _, readLine_cut h0 (fgets_eof hnl hne hlen), ?_, ?_⟩ <;> rw [List.length_dropLast] <;> omega
  · have hnl : newline ∉ stdin.take 1000 := by
      intro hmem
      cases hidx : strchr stdin newline with
      | none => exact List.idxOf?_eq_none_iff.1 hidx (List.mem_of_mem_take hmem)
      | some n =>
        have hle : 1000 ≤ n := hlong n hidx
        exact (split_of_strchr hidx).2 (List.take_subset_take_left _ hle hmem)
    have hcut : fgets lineMax (stdin.take 1000 ++ stdin.drop 1000) = some (stdin.take 1000, stdin.drop 1000) :=
      fgets_cut hnl (by simp [hne]) (by rw [List.length_take, lineMax]; omega) _
    rw [List.take_append_drop] at hcut
    refine ⟨_, _, readLine_cut h0 hcut, ?_, ?_⟩ <;> rw [List.length_dropLast, List.length_take] <;> omega

/-! ## The lines -/

theorem terminatedLines_cons {line : List Byte} (hnl : newline ∉ line) (rest : List Byte) :
    terminatedLines (line ++ newline :: rest) = line :: terminatedLines rest ∧
      lastLine (line ++ newline :: rest) = lastLine rest := by
  obtain ⟨p, ps, hps⟩ := List.exists_cons_of_ne_nil (List.splitOn_ne_nil newline rest)
  unfold terminatedLines lastLine
  rw [List.splitOn_append_cons_self_of_not_mem hnl, hps]
  exact ⟨rfl, rfl⟩

theorem inputLines_cons {line : List Byte} (hnl : newline ∉ line) (rest : List Byte) :
    inputLines (line ++ newline :: rest) = line :: inputLines rest := by
  obtain ⟨hterm, hlast⟩ := terminatedLines_cons hnl rest
  unfold inputLines
  rw [hterm, hlast, List.cons_append]

theorem terminatedLines_last {line : List Byte} (hnl : newline ∉ line) :
    terminatedLines line = [] ∧ lastLine line = line := by
  unfold terminatedLines lastLine
  rw [List.splitOn_eq_singleton hnl]
  exact ⟨rfl, rfl⟩

theorem upToQuit_head (l : CString) (ls : List CString) : ∃ tail, upToQuit (l :: ls) = l :: tail := by
  unfold upToQuit
  split
  · exact ⟨[], rfl⟩
  · exact ⟨_, rfl⟩

/-- What is read first is not the first line. -/
theorem chunkStrings_ne {stdin rest : List Byte} {line first : CString} (h : readLine stdin = some (line, rest))
    (hne : line ≠ first) (ls : List CString) : chunkStrings stdin ≠ upToQuit (first :: ls) := by
  obtain ⟨tail, htail⟩ := upToQuit_head first ls
  rw [chunkStrings_of_readLine h, htail]
  split
  · exact fun heq => hne (List.cons.inj heq).1
  · exact fun heq => hne (List.cons.inj heq).1

theorem chunkStrings_ne_of_cut {stdin : List Byte} (h0 : 0 ∉ stdin) (hne : stdin ≠ [])
    (hlong : ∀ n, strchr stdin newline = some n → 999 < n) {first : CString}
    (hfirst : first = stdin ∨ 999 < first.length) (ls : List CString) :
    chunkStrings stdin ≠ upToQuit (first :: ls) := by
  obtain ⟨line, rest, hread, hle, hlt⟩ := exists_readLine h0 hne hlong
  refine chunkStrings_ne hread ?_ ls
  rintro rfl
  rcases hfirst with rfl | hfirst
  · exact Nat.lt_irrefl _ hlt
  · omega

theorem chunkStrings_line {line : CString} (h0 : 0 ∉ line) (hnl : newline ∉ line) (hshort : line.length ≤ 999)
    (rest : List Byte) : chunkStrings (line ++ newline :: rest) =
      if line = quitShell then [line] else line :: chunkStrings rest :=
  chunkStrings_of_readLine (readLine_line h0 hnl (by omega) rest)

/-- The chunks are the lines exactly when each line up to the first `quit_shell` has at most 999 characters and ends
with a newline. -/
theorem chunkStrings_iff (stdin : List Byte) (h0 : 0 ∉ stdin) :
    chunkStrings stdin = upToQuit (inputLines stdin) ↔
      (∀ line ∈ upToQuit (terminatedLines stdin), line.length ≤ 999) ∧
        (lastLine stdin = [] ∨ quitShell ∈ terminatedLines stdin) := by
  cases hidx : strchr stdin newline with
  | none =>
    -- at most one line, and it has no newline
    obtain ⟨hterm, hlast⟩ := terminatedLines_last (List.idxOf?_eq_none_iff.1 hidx)
    unfold inputLines
    rw [hterm, hlast, List.nil_append]
    by_cases hne : stdin = []
    · subst hne
      exact iff_of_true (by decide +kernel) ⟨nofun, .inl rfl⟩
    · rw [if_neg hne]
      have hcut := chunkStrings_ne_of_cut h0 hne (by rw [hidx]; exact nofun) (.inl rfl) []
      exact iff_of_false hcut fun h => h.2.elim hne nofun
  | some n =>
    obtain ⟨hsplit, hnl⟩ := split_of_strchr hidx
    have hn := lt_of_strchr hidx
    obtain ⟨hterm, hlast⟩ := terminatedLines_cons hnl (stdin.drop (n + 1))
    have hlines := inputLines_cons hnl (stdin.drop (n + 1))
    rw [← hsplit] at hterm hlast hlines
    have hlen : (stdin.take n).length = n := List.length_take_of_le (Nat.le_of_lt hn)
    rw [hlines, hterm, hlast]
    by_cases hshort : n ≤ 999
    · have hread := chunkStrings_line (fun h => h0 (List.mem_of_mem_take h)) hnl (by omega) (stdin.drop (n + 1))
      rw [← hsplit] at hread
      rw [hread, upToQuit, upToQuit]
      by_cases hquit : stdin.take n = quitShell
      · rw [if_pos hquit, if_pos hquit, if_pos hquit]
        refine iff_of_true rfl ⟨fun line hline => ?_, .inr (by rw [hquit]; exact List.mem_cons_self)⟩
        rw [List.mem_singleton.1 hline]
        omega
      · have ih := chunkStrings_iff (stdin.drop (n + 1)) fun h => h0 (List.mem_of_mem_drop h)
        rw [if_neg hquit, if_neg hquit, if_neg hquit, List.cons_inj_right, ih, List.forall_mem_cons, hlen,
          List.mem_cons, or_iff_right (Ne.symm hquit), and_iff_right hshort]
    · have hlong : ∀ m, strchr stdin newline = some m → 999 < m := by
        rw [hidx]
        rintro m ⟨⟩
        omega
      have hne : stdin ≠ [] := List.length_pos_iff.1 (by omega)
      refine iff_of_false (chunkStrings_ne_of_cut h0 hne hlong (.inr (by omega)) _) (fun h => ?_)
      obtain ⟨tail, htail⟩ := upToQuit_head (stdin.take n) (terminatedLines (stdin.drop (n + 1)))
      have := h.1 (stdin.take n) (by rw [htail]; exact List.mem_cons_self)
      omega
termination_by stdin.length
decreasing_by
  rw [List.length_drop]
  omega

/-- **The shell works on the lines of its input**, where the programs end and leave it alone, exactly when each line up
to the first `quit_shell` has at most 999 characters and ends with a newline. -/
theorem readStrings_iff (body : Nat → List Byte → Option (List Byte)) (stdin : List Byte) (h0 : 0 ∉ stdin)
    (hbody : LeavesInput body stdin) :
    PassesLines body stdin ↔
      (∀ line ∈ upToQuit (terminatedLines stdin), line.length ≤ 999) ∧
        (lastLine stdin = [] ∨ quitShell ∈ terminatedLines stdin) := by
  rw [← chunkStrings_iff stdin h0]
  constructor
  · intro h
    have hall := h (max (chunkStrings stdin).length (upToQuit (inputLines stdin)).length)
    rw [readStrings_of_leaves _ hbody] at hall
    rwa [List.take_of_length_le (Nat.le_max_left _ _), List.take_of_length_le (Nat.le_max_right _ _)] at hall
  · intro h n
    rw [readStrings_of_leaves n hbody, h]

/-- Two lines whose programs read nothing of the input, `quit_shell` and what comes behind it. -/
def session : List Byte := str "ls\necho a | ls\nquit_shell\nrest".toList

theorem readStrings_session : PassesLines (fun _ rest => some rest) session :=
  (readStrings_iff (fun _ rest => some rest) session (by decide) fun _ _ _ => rfl).2 (by decide)

/-- **The last line without a newline** loses its last character: `ls` is read as `l`. -/
theorem unterminated_line_is_cut : ¬ PassesLines (fun _ rest => some rest) (str ['l', 's']) := by
  intro h
  have hcut : readStrings 1 (fun _ rest => some rest) (str ['l', 's']) ≠
      (upToQuit (inputLines (str ['l', 's']))).take 1 := by
    decide +kernel
  exact hcut (h 1)

/-- What is behind a line whose command cannot be run is in the shell's buffer and, the input having been moved back to
the end of the line, once more in the input: `b` is read twice. -/
example : readStrings 4 (fun k rest => some (if k = 0 then rest ++ rest else rest)) (str ['a', '\n', 'b', '\n']) =
    [str ['a'], str ['b'], str ['b']] := by
  decide +kernel

end Shell
end Eltex
