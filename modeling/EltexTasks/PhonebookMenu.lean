import EltexTasks.PhonebookInput
/-!
# PhonebookMenu — the interactive phonebook

`phonebook_interactive` goes on until a 3 is read in the menu.  Every turn of the menu consumes at least one byte while
there is one; at the end of the input `scanf` and `getchar` fail, which nothing looks at, and the menu is shown again
and again (`reachesExit_iff`).  What a turn reads is said of the bytes it covers (`Turn`, `ReadsThree`).
-/
namespace Eltex
namespace Pb

/-- `pb_state` -/
inductive PbState where
  | menu
  | add
  | print
  | exit
  | inputErr
deriving DecidableEq, Repr

/-! ## Reading a number -/

/-- `isspace` in the C locale. -/
def isspace (b : Byte) : Bool := b == chr ' ' || (chr '\t' ≤ b && b ≤ chr '\r')

def isdigit (b : Byte) : Bool := chr '0' ≤ b && b ≤ chr '9'

/-- The sign `scanf` consumes in front of the digits, and what follows it. -/
def scanSign : List Byte → Int × List Byte
  | [] => (1, [])
  | b :: s => if b = chr '-' then (-1, s) else if b = chr '+' then (1, s) else (1, b :: s)

def decimal (digits : List Byte) : Nat := digits.foldl (fun n d => 10 * n + (d.toNat - (chr '0').toNat)) 0

/-- The value that a number is converted to; `wide` gives it for one outside the range of `int`, which the standard
leaves undefined. -/
def toInt (wide : Int → Int) (n : Int) : Int := if -2 ^ 31 ≤ n ∧ n < 2 ^ 31 then n else wide n

/-- `scanf("%d", &input)`: the new value of `input` and what is left unread.  Without a digit `input` stays as it is,
and the byte in the digit's place is left; white space and a sign before it are gone. -/
def scanfInt (wide : Int → Int) (input : Int) (stdin : List Byte) : Int × List Byte :=
  let (sign, stdin) := scanSign (stdin.dropWhile isspace)
  let digits := stdin.takeWhile isdigit
  if digits = [] then (input, stdin) else (toInt wide (sign * decimal digits), stdin.dropWhile isdigit)

/-- `phonebook_menu_input` -/
def phonebookMenuInput (wide : Int → Int) (stdin : List Byte) : PbState × List Byte :=
  let (input, stdin) := scanfInt wide 0 stdin
  (if input = 1 then .print else if input = 2 then .add else if input = 3 then .exit else .inputErr, stdin.tail)

/-! ## The state machine -/

/-- The loop of `print_all_entries`: what is printed; `none` where it reads freed memory or never ends. -/
def printLoop (heap : Heap PhonebookEntry) : Nat → Option Addr → Option (List (CString × CString × CString))
  | _, none => some []
  | 0, some _ => none
  | fuel + 1, some pentry => (heap.load pentry).bind fun e =>
    (printLoop heap fuel e.nextEntry).map ((e.firstName, e.lastName, e.phoneNumber) :: ·)

def printAllEntries (pb : Phonebook) (heap : Heap PhonebookEntry) : Option (List (CString × CString × CString)) :=
  printLoop heap heap.size pb.firstEntry

/-- What the program does not determine: where `malloc` allocates and what it finds there, the arrays of
`phonebook_entry_input` before they are read into, and the value of a number out of range. -/
structure Env where
  alloc : Heap PhonebookEntry → Addr
  fresh : ∀ heap, alloc heap ∉ heap
  raw : Heap PhonebookEntry → PhonebookEntry
  arrays : Heap PhonebookEntry → Arrays
  wide : Int → Int

structure Interactive where
  pb : Phonebook
  heap : Heap PhonebookEntry
  state : PbState
  stdin : List Byte

/-- One round of the loop of `phonebook_interactive`. -/
def transition (env : Env) (m : Interactive) : Option Interactive :=
  match m.state with
  | .menu =>
    let (state, stdin) := phonebookMenuInput env.wide m.stdin
    some { m with state := state, stdin := stdin }
  | .add =>
    (phonebookEntryInput m.pb m.heap (env.alloc m.heap) (env.raw m.heap) (env.arrays m.heap) m.stdin).map
      fun (pb, heap, stdin) => { pb := pb, heap := heap, state := .menu, stdin := stdin }
  | .print => (printAllEntries m.pb m.heap).map fun _ => { m with state := .menu }
  | .inputErr => some { m with state := .menu }
  | .exit => some m

/-- At most `n` rounds; the loop ends in `EXIT`. -/
def phonebookInteractive (env : Env) : Nat → Interactive → Option Interactive
  | 0, m => some m
  | n + 1, m => if m.state = .exit then some m else (transition env m).bind (phonebookInteractive env n)

/-- The machine reaches `EXIT` after finitely many transitions. -/
def ReachesExit (env : Env) (m : Interactive) : Prop :=
  ∃ n t, phonebookInteractive env n m = some t ∧ t.state = .exit

/-! ## The input in turns -/

/-- What three calls of `fgets` leave unread. -/
def skipEntry (stdin : List Byte) : List Byte :=
  (inputField [] (inputField [] (inputField [] stdin).2).2).2

theorem length_scanSign_le (s : List Byte) : (scanSign s).2.length ≤ s.length := by
  cases s with
  | nil => exact Nat.le_refl _
  | cons b s =>
    rw [scanSign]
    by_cases hminus : b = chr '-'
    · rw [if_pos hminus]
      exact Nat.le_succ _
    · by_cases hplus : b = chr '+'
      · rw [if_neg hminus, if_pos hplus]
        exact Nat.le_succ _
      · rw [if_neg hminus, if_neg hplus]

theorem length_scanfInt_le (wide : Int → Int) (input : Int) (stdin : List Byte) :
    (scanfInt wide input stdin).2.length ≤ stdin.length := by
  have hsign := length_scanSign_le (stdin.dropWhile isspace)
  have hspace := List.length_dropWhile_le isspace stdin
  have hdigits := List.length_dropWhile_le isdigit (scanSign (stdin.dropWhile isspace)).2
  unfold scanfInt
  simp only
  split
  · exact Nat.le_trans hsign hspace
  · exact Nat.le_trans hdigits (Nat.le_trans hsign hspace)

/-- **A turn of the menu consumes a byte** while there is one. -/
theorem length_menuInput_lt (wide : Int → Int) {stdin : List Byte} (h : stdin ≠ []) :
    (phonebookMenuInput wide stdin).2.length < stdin.length := by
  have hle := length_scanfInt_le wide 0 stdin
  have hpos := List.length_pos_iff.2 h
  have htail : (phonebookMenuInput wide stdin).2 = (scanfInt wide 0 stdin).2.tail := rfl
  rw [htail, List.length_tail]
  omega

theorem menuInput_ne_menu (wide : Int → Int) (stdin : List Byte) : (phonebookMenuInput wide stdin).1 ≠ .menu := by
  unfold phonebookMenuInput
  simp only
  split
  · nofun
  · split
    · nofun
    · split
      · nofun
      · nofun

theorem length_inputField_le (arr : CString) (stdin : List Byte) : (inputField arr stdin).2.length ≤ stdin.length := by
  unfold inputField
  split
  · exact Nat.le_refl _
  · rename_i bytes rest hfgets
    obtain ⟨rfl, -⟩ := append_of_fgets (by decide) hfgets
    rw [List.length_append]
    exact Nat.le_add_left _ _

theorem length_skipEntry_le (stdin : List Byte) : (skipEntry stdin).length ≤ stdin.length := by
  unfold skipEntry
  exact Nat.le_trans (length_inputField_le _ _)
    (Nat.le_trans (length_inputField_le _ _) (length_inputField_le _ _))

/-! ## The turns that read a 3 -/

/-- **A turn of the menu**: white space, a sign and digits, each as far as they go, and what is `behind` them.  The
first byte of what is behind them is part of the turn. -/
structure Turn (stdin : List Byte) where
  spaces : List Byte
  sign : List Byte
  digits : List Byte
  behind : List Byte
  split : stdin = spaces ++ (sign ++ (digits ++ behind))
  spaces_all : ∀ b ∈ spaces, isspace b = true
  spaces_end : ∀ b ∈ (sign ++ (digits ++ behind)).head?, isspace b = false
  sign_one : sign = [] ∨ sign = [chr '-'] ∨ sign = [chr '+']
  sign_end : sign = [] → ∀ b ∈ (digits ++ behind).head?, b ≠ chr '-' ∧ b ≠ chr '+'
  digits_all : ∀ b ∈ digits, isdigit b = true
  digits_end : ∀ b ∈ behind.head?, isdigit b = false

variable {stdin rest : List Byte} {wide : Int → Int}

/-- The number a turn reads; without a digit it reads none. -/
def Turn.number (wide : Int → Int) (turn : Turn stdin) : Option Int :=
  if turn.digits = [] then none
  else some (toInt wide (if turn.sign = [chr '-'] then -decimal turn.digits else decimal turn.digits))

/-- What one `fgets` of an entry takes from the front of the input: at most 19 bytes, up to a newline, the end of the
input or the end of the array. -/
structure Piece (piece behind : List Byte) : Prop where
  noNewline : newline ∉ piece.dropLast
  short : piece.length ≤ 19
  full : piece.getLast? = some newline ∨ piece.length = 19 ∨ behind = []

/-- **A turn of the menu reads a 3**, the first of the input or, behind a turn that reads none, a later one; three
pieces are skipped behind a turn that reads a 2. -/
inductive ReadsThree (wide : Int → Int) : List Byte → Prop where
  | three {stdin : List Byte} (turn : Turn stdin) (hthree : turn.number wide = some 3) : ReadsThree wide stdin
  | entry {stdin first last number rest : List Byte} (turn : Turn stdin) (htwo : turn.number wide = some 2)
      (split : turn.behind.tail = first ++ (last ++ (number ++ rest))) (hfirst : Piece first (last ++ (number ++ rest)))
      (hlast : Piece last (number ++ rest)) (hnumber : Piece number rest) (later : ReadsThree wide rest) :
      ReadsThree wide stdin
  | other {stdin : List Byte} (turn : Turn stdin) (hthree : turn.number wide ≠ some 3)
      (htwo : turn.number wide ≠ some 2) (later : ReadsThree wide turn.behind.tail) : ReadsThree wide stdin

theorem dropWhile_append_of_head {α : Type} {p : α → Bool} {xs ys : List α} (hall : ∀ x ∈ xs, p x = true)
    (hend : ∀ y ∈ ys.head?, p y = false) : (xs ++ ys).dropWhile p = ys := by
  rw [List.dropWhile_append_of_pos hall]
  cases ys with
  | nil => rfl
  | cons y ys => exact List.dropWhile_cons_of_neg (by rw [hend y rfl]; exact Bool.false_ne_true)

theorem takeWhile_append_of_head {α : Type} {p : α → Bool} {xs ys : List α} (hall : ∀ x ∈ xs, p x = true)
    (hend : ∀ y ∈ ys.head?, p y = false) : (xs ++ ys).takeWhile p = xs := by
  rw [List.takeWhile_append_of_pos hall]
  cases ys with
  | nil => exact List.append_nil xs
  | cons y ys =>
    rw [List.takeWhile_cons_of_neg (by rw [hend y rfl]; exact Bool.false_ne_true), List.append_nil]

theorem Turn.scanSign_eq (turn : Turn stdin) : scanSign (turn.sign ++ (turn.digits ++ turn.behind)) =
    (if turn.sign = [chr '-'] then -1 else 1, turn.digits ++ turn.behind) := by
  rcases turn.sign_one with hsign | hsign | hsign
  · rw [hsign, if_neg (by decide), List.nil_append]
    cases hrest : turn.digits ++ turn.behind with
    | nil => rfl
    | cons b rest =>
      obtain ⟨hminus, hplus⟩ := turn.sign_end hsign b (by rw [hrest]; rfl)
      rw [scanSign, if_neg hminus, if_neg hplus]
  · rw [hsign]
    rfl
  · rw [hsign]
    rfl

/-- `scanf` reads the number of the turn, and leaves what is behind the digits. -/
theorem Turn.scanfInt_eq (turn : Turn stdin) (input : Int) :
    scanfInt wide input stdin = ((turn.number wide).getD input, turn.behind) := by
  have hspaces : stdin.dropWhile isspace = turn.sign ++ (turn.digits ++ turn.behind) := by
    conv_lhs => rw [turn.split]
    exact dropWhile_append_of_head turn.spaces_all turn.spaces_end
  unfold scanfInt Turn.number
  rw [hspaces, turn.scanSign_eq]
  simp only [takeWhile_append_of_head turn.digits_all turn.digits_end,
    dropWhile_append_of_head turn.digits_all turn.digits_end]
  by_cases hdigits : turn.digits = []
  · rw [if_pos hdigits, if_pos hdigits, hdigits]
    rfl
  · rw [if_neg hdigits, if_neg hdigits, Option.getD_some]
    by_cases hsign : turn.sign = [chr '-']
    · rw [if_pos hsign, if_pos hsign, neg_one_mul]
    · rw [if_neg hsign, if_neg hsign, one_mul]

theorem Turn.menuInput_rest (turn : Turn stdin) : (phonebookMenuInput wide stdin).2 = turn.behind.tail := by
  unfold phonebookMenuInput
  rw [turn.scanfInt_eq]

/-- The menu is left exactly by a turn that reads a 3, and an entry is read exactly behind one that reads a 2. -/
theorem Turn.menuInput_state (turn : Turn stdin) :
    ((phonebookMenuInput wide stdin).1 = .exit ↔ turn.number wide = some 3) ∧
      ((phonebookMenuInput wide stdin).1 = .add ↔ turn.number wide = some 2) := by
  unfold phonebookMenuInput
  rw [turn.scanfInt_eq]
  cases hnumber : turn.number wide with
  | none =>
    simp only [Option.getD_none]
    exact ⟨by decide, by decide⟩
  | some n =>
    simp only [Option.getD_some, Option.some.injEq]
    by_cases h1 : n = 1
    · subst h1
      exact ⟨by decide, by decide⟩
    · by_cases h2 : n = 2
      · subst h2
        exact ⟨by decide, by decide⟩
      · by_cases h3 : n = 3
        · subst h3
          exact ⟨by decide, by decide⟩
        · rw [if_neg h1, if_neg h2, if_neg h3]
          exact ⟨iff_of_false PbState.noConfusion h3, iff_of_false PbState.noConfusion h2⟩

theorem head_dropWhile {α : Type} {p : α → Bool} (xs : List α) : ∀ x ∈ (xs.dropWhile p).head?, p x = false := by
  intro x hx
  have := List.head?_dropWhile_not p xs
  rw [Option.mem_def.1 hx] at this
  simpa using this

/-- Every input begins with a turn. -/
theorem exists_turn (stdin : List Byte) : Nonempty (Turn stdin) := by
  obtain ⟨rest, hrest⟩ : ∃ rest, rest = stdin.dropWhile isspace := ⟨_, rfl⟩
  have hspaces : stdin.takeWhile isspace ++ rest = stdin := by rw [hrest, List.takeWhile_append_dropWhile]
  have hhead : ∀ b ∈ rest.head?, isspace b = false := by
    rw [hrest]
    exact head_dropWhile stdin
  -- the sign, if there is one
  obtain ⟨sign, digits, rfl, hone, hend⟩ : ∃ sign digits, rest = sign ++ digits ∧
      (sign = [] ∨ sign = [chr '-'] ∨ sign = [chr '+']) ∧
      (sign = [] → ∀ b ∈ digits.head?, b ≠ chr '-' ∧ b ≠ chr '+') := by
    cases rest with
    | nil => exact ⟨[], [], rfl, .inl rfl, nofun⟩
    | cons b rest =>
      by_cases hminus : b = chr '-'
      · exact ⟨[b], rest, rfl, .inr (.inl (by rw [hminus])), nofun⟩
      · by_cases hplus : b = chr '+'
        · exact ⟨[b], rest, rfl, .inr (.inr (by rw [hplus])), nofun⟩
        · refine ⟨[], b :: rest, rfl, .inl rfl, ?_⟩
          rintro - _ ⟨⟩
          exact ⟨hminus, hplus⟩
  have hdigits : digits.takeWhile isdigit ++ digits.dropWhile isdigit = digits := List.takeWhile_append_dropWhile
  refine ⟨⟨stdin.takeWhile isspace, sign, digits.takeWhile isdigit, digits.dropWhile isdigit, ?_, ?_, ?_, hone, ?_, ?_,
    head_dropWhile digits⟩⟩
  · rw [hdigits, hspaces]
  · exact fun b hb => List.mem_takeWhile_imp hb
  · rw [hdigits]
    exact hhead
  · rw [hdigits]
    exact hend
  · exact fun b hb => List.mem_takeWhile_imp hb

theorem Piece.inputField_rest {piece behind : List Byte} (h : Piece piece behind) :
    (inputField [] (piece ++ behind)).2 = behind := by
  rcases List.eq_nil_or_concat piece with rfl | ⟨line, b, rfl⟩
  · -- nothing is read at the end of the input only
    rcases h.full with hfull | hfull | rfl
    · cases hfull
    · cases hfull
    · rfl
  · have hline : newline ∉ line := by
      have := h.noNewline
      rwa [List.concat_eq_append, List.dropLast_concat] at this
    have hshort := h.short
    have hfull := h.full
    rw [List.concat_eq_append, List.length_append, List.length_singleton] at hshort hfull
    rw [List.getLast?_concat] at hfull
    unfold inputField
    rw [List.concat_eq_append]
    by_cases hb : b = newline
    · subst hb
      rw [List.append_assoc, List.singleton_append, fgets_line hline hshort]
    · have hnl : newline ∉ line ++ [b] := by
        rw [List.mem_append, List.mem_singleton, not_or]
        exact ⟨hline, Ne.symm hb⟩
      have hne : line ++ [b] ≠ [] := List.append_ne_nil_of_right_ne_nil _ (List.cons_ne_nil _ _)
      rcases hfull with hfull | hfull | rfl
      · exact absurd (Option.some.inj hfull) hb
      · rw [fgets_cut hnl hne (by rw [List.length_append]; exact hfull)]
      · rw [List.append_nil, fgets_eof hnl hne (by rw [List.length_append]; exact hshort)]

theorem exists_piece (stdin : List Byte) : ∃ piece behind, stdin = piece ++ behind ∧ Piece piece behind := by
  by_cases hmem : newline ∈ stdin.take 19
  · obtain ⟨n, hn⟩ : ∃ n, strchr (stdin.take 19) newline = some n :=
      Option.ne_none_iff_exists'.1 fun hnone => List.idxOf?_eq_none_iff.1 hnone hmem
    obtain ⟨hsplit, hnl⟩ := split_of_strchr hn
    have hlt := lt_of_strchr hn
    rw [List.length_take] at hlt
    refine ⟨(stdin.take 19).take n ++ [newline], (stdin.take 19).drop (n + 1) ++ stdin.drop 19, ?_, ?_, ?_, ?_⟩
    · conv_lhs => rw [← List.take_append_drop 19 stdin, hsplit]
      simp
    · rw [List.dropLast_concat]
      exact hnl
    · rw [List.length_append, List.length_take, List.length_take, List.length_singleton]
      omega
    · exact .inl List.getLast?_concat
  · refine ⟨stdin.take 19, stdin.drop 19, (List.take_append_drop 19 stdin).symm, ?_, ?_, ?_⟩
    · exact fun hdrop => hmem (List.mem_of_mem_dropLast hdrop)
    · rw [List.length_take]
      exact Nat.min_le_left _ _
    · right
      rw [List.length_take, List.drop_eq_nil_iff]
      omega

theorem skipEntry_pieces {first last number : List Byte} (hfirst : Piece first (last ++ (number ++ rest)))
    (hlast : Piece last (number ++ rest)) (hnumber : Piece number rest) :
    skipEntry (first ++ (last ++ (number ++ rest))) = rest := by
  rw [skipEntry, hfirst.inputField_rest, hlast.inputField_rest, hnumber.inputField_rest]

theorem exists_pieces (stdin : List Byte) : ∃ first last number rest, stdin = first ++ (last ++ (number ++ rest)) ∧
    Piece first (last ++ (number ++ rest)) ∧ Piece last (number ++ rest) ∧ Piece number rest := by
  obtain ⟨first, behind, rfl, hfirst⟩ := exists_piece stdin
  obtain ⟨last, behind, rfl, hlast⟩ := exists_piece behind
  obtain ⟨number, rest, rfl, hnumber⟩ := exists_piece behind
  exact ⟨first, last, number, rest, rfl, hfirst, hlast, hnumber⟩

/-- **A turn of the menu decides** whether a 3 is read, or leaves it to what follows. -/
theorem readsThree_iff (wide : Int → Int) (stdin : List Byte) : ReadsThree wide stdin ↔
    match (phonebookMenuInput wide stdin).1 with
    | .exit => True
    | .add => ReadsThree wide (skipEntry (phonebookMenuInput wide stdin).2)
    | _ => ReadsThree wide (phonebookMenuInput wide stdin).2 := by
  constructor
  · rintro (⟨turn, hthree⟩ | ⟨turn, htwo, split, hfirst, hlast, hnumber, later⟩ | ⟨turn, hthree, htwo, later⟩)
    · rw [turn.menuInput_state.1.2 hthree]
      trivial
    · rw [turn.menuInput_state.2.2 htwo, turn.menuInput_rest, split]
      dsimp only
      rwa [skipEntry_pieces hfirst hlast hnumber]
    · have hexit : (phonebookMenuInput wide stdin).1 ≠ .exit := fun h => hthree (turn.menuInput_state.1.1 h)
      have hadd : (phonebookMenuInput wide stdin).1 ≠ .add := fun h => htwo (turn.menuInput_state.2.1 h)
      rw [turn.menuInput_rest]
      split
      · trivial
      · exact absurd ‹_› hadd
      · exact later
  · intro h
    obtain ⟨turn⟩ := exists_turn stdin
    rw [turn.menuInput_rest] at h
    by_cases hthree : turn.number wide = some 3
    · exact .three turn hthree
    · by_cases htwo : turn.number wide = some 2
      · rw [turn.menuInput_state.2.2 htwo] at h
        obtain ⟨first, last, number, rest, split, hfirst, hlast, hnumber⟩ := exists_pieces turn.behind.tail
        dsimp only at h
        rw [split, skipEntry_pieces hfirst hlast hnumber] at h
        exact .entry turn htwo split hfirst hlast hnumber h
      · have hexit : (phonebookMenuInput wide stdin).1 ≠ .exit := fun h => hthree (turn.menuInput_state.1.1 h)
        have hadd : (phonebookMenuInput wide stdin).1 ≠ .add := fun h => htwo (turn.menuInput_state.2.1 h)
        refine .other turn hthree htwo ?_
        split at h
        · exact absurd ‹_› hexit
        · exact absurd ‹_› hadd
        · exact h

/-- There is no 3 at the end of the input. -/
theorem ReadsThree.ne_nil (h : ReadsThree wide stdin) : stdin ≠ [] := by
  have hdigits : ∀ {stdin : List Byte} (turn : Turn stdin) {n : Int}, turn.number wide = some n → stdin ≠ [] := by
    rintro stdin turn n hnumber rfl
    have hnil := List.append_eq_nil_iff.1 (List.append_eq_nil_iff.1 (List.append_eq_nil_iff.1 turn.split.symm).2).2
    rw [Turn.number, if_pos hnil.1] at hnumber
    cases hnumber
  induction h with
  | three turn hthree => exact hdigits turn hthree
  | entry turn htwo => exact hdigits turn htwo
  | other turn hthree htwo later ih =>
    rintro rfl
    have hnil := List.append_eq_nil_iff.1 (List.append_eq_nil_iff.1 (List.append_eq_nil_iff.1 turn.split.symm).2).2
    rw [hnil.2] at ih
    exact ih rfl

/-! ## The rounds -/

variable {env : Env} {m t : Interactive} {as : List Addr}

theorem printLoop_chain {heap : Heap PhonebookEntry} : ∀ (as : List Addr) (fuel : Nat) (p : Option Addr),
    entryLinks.Chain heap p as none → as.length ≤ fuel → ∃ printed, printLoop heap fuel as.head? = some printed
  | [], fuel, _, _, _ => ⟨[], by cases fuel <;> rfl⟩
  | a :: as, 0, _, _, hlen => absurd hlen (Nat.not_succ_le_zero _)
  | a :: as, fuel + 1, p, ⟨⟨e, he, _, hnext⟩, hrest⟩, hlen => by
    obtain ⟨printed, hprinted⟩ := printLoop_chain as fuel (some a) hrest (Nat.le_of_succ_le_succ hlen)
    rw [Option.or_none] at hnext
    refine ⟨(e.firstName, e.lastName, e.phoneNumber) :: printed, ?_⟩
    rw [List.head?_cons, printLoop, he, Option.bind_some, show e.nextEntry = as.head? from hnext, hprinted,
      Option.map_some]

/-- What `fgets` leaves does not depend on the array. -/
theorem inputField_rest (arr arr' : CString) (stdin : List Byte) :
    (inputField arr stdin).2 = (inputField arr' stdin).2 := by
  unfold inputField
  split
  · rfl
  · rfl

theorem transition_menu (hstate : m.state = .menu) : transition env m = some { m with
    state := (phonebookMenuInput env.wide m.stdin).1
    stdin := (phonebookMenuInput env.wide m.stdin).2 } := by
  rw [transition, hstate]

theorem transition_inputErr (hstate : m.state = .inputErr) : transition env m = some { m with state := .menu } := by
  rw [transition, hstate]

theorem transition_print (h : Linked m.pb m.heap as) (hstate : m.state = .print) :
    transition env m = some { m with state := .menu } := by
  obtain ⟨printed, hprinted⟩ := printLoop_chain as m.heap.size none h.chain h.length_le
  rw [transition, hstate]
  simp only [printAllEntries, h.first, hprinted, Option.map_some]

/-- **The round in `ADD`** adds an entry, whatever is read, and goes back to the menu. -/
theorem transition_add (h : Linked m.pb m.heap as) (hstate : m.state = .add) :
    ∃ t, transition env m = some t ∧ Linked t.pb t.heap (as ++ [env.alloc m.heap]) ∧ t.state = .menu ∧
      t.stdin = skipEntry m.stdin := by
  have hfresh := env.fresh m.heap
  obtain ⟨g, hadd, hchain, -⟩ := addEntry_spec h hfresh (env.raw m.heap)
    (inputField (env.arrays m.heap).firstName m.stdin).1
    (inputField (env.arrays m.heap).lastName (inputField (env.arrays m.heap).firstName m.stdin).2).1
    (inputField (env.arrays m.heap).phoneNumber
      (inputField (env.arrays m.heap).lastName (inputField (env.arrays m.heap).firstName m.stdin).2).2).1
  have hrest : (inputField (env.arrays m.heap).phoneNumber (inputField (env.arrays m.heap).lastName
      (inputField (env.arrays m.heap).firstName m.stdin).2).2).2 = skipEntry m.stdin := by
    rw [skipEntry, inputField_rest _ [], inputField_rest _ [] (inputField (env.arrays m.heap).firstName m.stdin).2,
      inputField_rest _ [] m.stdin]
  rw [transition, hstate]
  simp only [phonebookEntryInput, hadd, Option.map_some, hrest]
  exact ⟨_, rfl, ⟨hchain, h.nodup_concat hfresh, rfl⟩, rfl, rfl⟩

/-- Before `EXIT` a round more or less makes no difference. -/
theorem reachesExit_transition (hstate : m.state ≠ .exit) (ht : transition env m = some t) :
    ReachesExit env m ↔ ReachesExit env t := by
  constructor
  · rintro ⟨n, u, hrun, hexit⟩
    cases n with
    | zero =>
      obtain rfl := Option.some.inj hrun
      exact absurd hexit hstate
    | succ n =>
      rw [phonebookInteractive, if_neg hstate, ht] at hrun
      exact ⟨n, u, hrun, hexit⟩
  · rintro ⟨n, u, hrun, hexit⟩
    refine ⟨n + 1, u, ?_, hexit⟩
    rw [phonebookInteractive, if_neg hstate, ht]
    exact hrun

/-- **At the end of the input** the machine alternates between the menu and the message. -/
theorem not_reachesExit_nil (hstdin : m.stdin = []) (hstate : m.state = .menu ∨ m.state = .inputErr) :
    ¬ ReachesExit env m := by
  have hloop : ∀ (n : Nat) (m t : Interactive), m.stdin = [] → m.state = .menu ∨ m.state = .inputErr →
      phonebookInteractive env n m = some t → t.state ≠ .exit := by
    intro n
    induction n with
    | zero =>
      intro m t _ hstate hrun
      obtain rfl := Option.some.inj hrun
      rcases hstate with h | h
      · rw [h]; nofun
      · rw [h]; nofun
    | succ n ih =>
      intro m t hstdin hstate hrun
      rcases hstate with h | h
      · rw [phonebookInteractive, if_neg (by rw [h]; nofun), transition_menu h, hstdin] at hrun
        exact ih _ t rfl (.inr rfl) hrun
      · rw [phonebookInteractive, if_neg (by rw [h]; nofun), transition_inputErr h] at hrun
        exact ih { m with state := .menu } t hstdin (.inl rfl) hrun
  rintro ⟨n, t, hrun, hexit⟩
  exact hloop n m t hstdin hstate hrun hexit

/-- **The interactive phonebook ends** exactly on the inputs in which a turn of the menu reads a 3. -/
theorem reachesExit_iff (env : Env) {pb : Phonebook} {heap : Heap PhonebookEntry} {as : List Addr}
    (h : Linked pb heap as) (stdin : List Byte) :
    ReachesExit env ⟨pb, heap, .menu, stdin⟩ ↔ ReadsThree env.wide stdin := by
  induction hn : stdin.length using Nat.strong_induction_on generalizing stdin pb heap as with
  | _ n ih =>
  by_cases hnil : stdin = []
  · exact iff_of_false (not_reachesExit_nil hnil (.inl rfl)) fun hthree => hthree.ne_nil hnil
  have hlt := length_menuInput_lt env.wide hnil
  have hmenu : transition env ⟨pb, heap, .menu, stdin⟩ = some ⟨pb, heap, (phonebookMenuInput env.wide stdin).1,
      (phonebookMenuInput env.wide stdin).2⟩ := transition_menu rfl
  have hturn := menuInput_ne_menu env.wide stdin
  rw [reachesExit_transition (show PbState.menu ≠ .exit by decide) hmenu, readsThree_iff]
  generalize phonebookMenuInput env.wide stdin = turn at hlt hturn ⊢
  obtain ⟨state, rest⟩ := turn
  dsimp only at hlt ⊢
  cases state with
  | menu => exact absurd rfl hturn
  | exit => exact iff_of_true ⟨0, _, rfl, rfl⟩ trivial
  | add =>
    obtain ⟨⟨pb', g, state, stdin'⟩, htrans, hlinked, rfl, rfl⟩ : ∃ t, transition env ⟨pb, heap, .add, rest⟩ = some t ∧
        Linked t.pb t.heap (as ++ [env.alloc heap]) ∧ t.state = .menu ∧ t.stdin = skipEntry rest := transition_add h rfl
    have hle := length_skipEntry_le rest
    rw [reachesExit_transition (show PbState.add ≠ .exit by decide) htrans]
    exact ih _ (by rw [← hn]; exact Nat.lt_of_le_of_lt hle hlt) hlinked (skipEntry rest) rfl
  | print =>
    rw [reachesExit_transition (show PbState.print ≠ .exit by decide) (transition_print h rfl)]
    exact ih _ (by rw [← hn]; exact hlt) h rest rfl
  | inputErr =>
    rw [reachesExit_transition (show PbState.inputErr ≠ .exit by decide) (transition_inputErr rfl)]
    exact ih _ (by rw [← hn]; exact hlt) h rest rfl

/-- `malloc` takes the addresses in turn. -/
def freshEnv : Env where
  alloc heap := heap.keys.foldr max 0 + 1
  fresh heap := by
    have hmax : ∀ (as : List Addr), ∀ a ∈ as, a ≤ as.foldr max 0 := by
      intro as
      induction as with
      | nil => exact nofun
      | cons b as ih =>
        intro a ha
        rcases List.mem_cons.1 ha with rfl | ha
        · exact Nat.le_max_left _ _
        · exact Nat.le_trans (ih a ha) (Nat.le_max_right _ _)
    intro hmem
    exact Nat.lt_irrefl _ (hmax heap.keys _ (AList.mem_keys.1 hmem))
  raw _ := default
  arrays _ := ⟨[], [], []⟩
  wide n := n

/-- A turn that is one digit and a newline. -/
def digitTurn (d : Byte) (hdigit : isdigit d = true) (hspace : isspace d = false) (hsign : d ≠ chr '-' ∧ d ≠ chr '+')
    (rest : List Byte) : Turn (d :: newline :: rest) where
  spaces := []
  sign := []
  digits := [d]
  behind := newline :: rest
  split := rfl
  spaces_all := nofun
  spaces_end := by rintro _ ⟨⟩; exact hspace
  sign_one := .inl rfl
  sign_end := by rintro - _ ⟨⟩; exact hsign
  digits_all := by rintro _ h; rw [List.mem_singleton.1 h]; exact hdigit
  digits_end := by rintro _ ⟨⟩; rfl

theorem number_digitTurn (d : Byte) (hdigit : isdigit d = true) (hspace : isspace d = false)
    (hsign : d ≠ chr '-' ∧ d ≠ chr '+') (rest : List Byte) :
    (digitTurn d hdigit hspace hsign rest).number wide = some (toInt wide (decimal [d])) := by
  show (if [d] = [] then none else some (toInt wide (if [] = [chr '-'] then -decimal [d] else decimal [d]))) = _
  rw [if_neg (List.cons_ne_nil d []), if_neg (List.cons_ne_nil (chr '-') []).symm]

theorem piece_char {b : Byte} (hb : b ≠ newline) (rest : List Byte) : Piece [b, newline] rest where
  noNewline := by simpa using Ne.symm hb
  short := show 2 ≤ 19 by decide
  full := .inl rfl

/-- An entry is added and printed, then the user leaves. -/
def enteredSession : List Byte :=
  [chr '2', newline, chr 'a', newline, chr 'b', newline, chr '7', newline, chr '1', newline, chr '3', newline]

theorem readsThree_entered : ReadsThree freshEnv.wide enteredSession := by
  have ha : chr 'a' ≠ newline := by decide
  have hb : chr 'b' ≠ newline := by decide
  have h7 : chr '7' ≠ newline := by decide
  unfold enteredSession
  refine .entry (digitTurn (chr '2') (by decide) (by decide) (by decide) _) ?_ rfl (piece_char ha _) (piece_char hb _)
    (piece_char h7 _) ?_
  · rw [number_digitTurn]
    decide
  refine .other (digitTurn (chr '1') (by decide) (by decide) (by decide) _) ?_ ?_ ?_
  · rw [number_digitTurn]
    decide
  · rw [number_digitTurn]
    decide
  show ReadsThree freshEnv.wide [chr '3', newline]
  refine .three (digitTurn (chr '3') (by decide) (by decide) (by decide) _) ?_
  rw [number_digitTurn]
  decide

theorem reachesExit_session : ReachesExit freshEnv ⟨phonebookCreate, ∅, .menu, enteredSession⟩ :=
  (reachesExit_iff freshEnv linked_create enteredSession).2 readsThree_entered

/-- **The empty input**: the menu is shown for ever. -/
theorem never_ends_at_eof : ¬ ReachesExit freshEnv ⟨phonebookCreate, ∅, .menu, []⟩ :=
  not_reachesExit_nil rfl (.inl rfl)

end Pb
end Eltex
