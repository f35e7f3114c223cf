import EltexTasks.PhonebookMenu
/-!
# PhonebookSession — what a session with the phonebook shows

A phonebook is for keeping a list of entries: `bookStep` says what may be seen of one.  The book in the heap and the
state machine over it show what such a list shows, whatever is typed and wherever `malloc` allocates
(`session_is_book`), and a session typed line by line is read back command by command (`session_of_commands`).  The
arrays that nothing is read into at the end of the input hold any strings (`Env.arrays`).
-/
namespace Eltex
namespace Pb

open Run (run trace)

/-- The three texts of an entry. -/
abbrev Texts := CString × CString × CString

/-- What can be seen of a round: the menu with the size of the book; the arrays of `phonebook_entry_input` after the
three calls of `fgets`; the entries that are printed. -/
inductive Seen where
  | menu (size : Nat)
  | entered (texts : Texts)
  | printed (texts : List Texts)
deriving DecidableEq, Repr

def enteredTexts (arrays : Arrays) (stdin : List Byte) : Texts :=
  let (firstName, stdin) := inputField arrays.firstName stdin
  let (lastName, stdin) := inputField arrays.lastName stdin
  let (phoneNumber, _) := inputField arrays.phoneNumber stdin
  (firstName, lastName, phoneNumber)

def seen (env : Env) (m : Interactive) (_ : Unit) : List Seen :=
  match m.state with
  | .menu => [.menu m.pb.size]
  | .add => [.entered (enteredTexts (env.arrays m.heap) m.stdin)]
  | .print => (printAllEntries m.pb m.heap).toList.map .printed
  | .inputErr => []
  | .exit => []

def round (env : Env) (m : Interactive) (_ : Unit) : Option Interactive := transition env m

/-- **What a phonebook is for**: an entry goes to the end of a list, cut to nothing where it does not fit; the list and
its length are shown. -/
def bookStep (book : List Texts) : Seen → Option (List Texts)
  | .menu size => if size = book.length % sizeValues then some book else none
  | .entered (first, last, number) => some (book ++ [(stored first, stored last, stored number)])
  | .printed texts => if texts = book then some book else none

/-- The texts of the entry at `a`. -/
def textsAt (heap : Heap PhonebookEntry) (a : Addr) : Option Texts :=
  (heap.load a).map fun e => (e.firstName, e.lastName, e.phoneNumber)

/-- The heap holds the list `book`. -/
structure Shows (m : Interactive) (book : List Texts) (as : List Addr) : Prop where
  linked : Linked m.pb m.heap as
  texts : as.map (textsAt m.heap) = book.map some
  size : m.pb.size = book.length % sizeValues

variable {env : Env} {m t : Interactive} {as : List Addr} {book : List Texts}

/-! ## One round -/

theorem textsAt_eq (heap : Heap PhonebookEntry) (a : Addr) :
    textsAt heap a = (dataAt heap a).map fun d => (d.firstName, d.lastName, d.phoneNumber) := by
  rw [textsAt, dataAt, Option.map_map]
  rfl

theorem printLoop_eq {heap : Heap PhonebookEntry} :
    ∀ (as : List Addr) (book : List Texts) (fuel : Nat) (p : Option Addr), entryLinks.Chain heap p as none → as.length ≤ fuel → as.map (textsAt heap) = book.map some →
    printLoop heap fuel as.head? = some book
  | [], book, fuel, _, _, _, htexts => by
    obtain rfl : book = [] := List.map_eq_nil_iff.1 htexts.symm
    cases fuel <;> rfl
  | a :: as, book, 0, _, _, hlen, _ => absurd hlen (Nat.not_succ_le_zero _)
  | a :: as, book, fuel + 1, p, ⟨⟨e, he, _, hnext⟩, hrest⟩, hlen, htexts => by
    cases book with
    | nil => cases htexts
    | cons x book =>
      rw [List.map_cons, List.map_cons, List.cons.injEq] at htexts
      have ih := printLoop_eq as book fuel (some a) hrest (Nat.le_of_succ_le_succ hlen) htexts.2
      rw [textsAt, he, Option.map_some, Option.some.injEq] at htexts
      rw [Option.or_none] at hnext
      rw [List.head?_cons, printLoop, he, Option.bind_some, show e.nextEntry = as.head? from hnext, ih, Option.map_some,
        htexts.1]

theorem Shows.printAllEntries (h : Shows m book as) : printAllEntries m.pb m.heap = some book := by
  rw [Pb.printAllEntries, h.linked.first]
  exact printLoop_eq as book m.heap.size none h.linked.chain h.linked.length_le h.texts

theorem shows_create (stdin : List Byte) : Shows ⟨phonebookCreate, ∅, .menu, stdin⟩ [] [] :=
  ⟨linked_create, rfl, rfl⟩

/-- A new entry is behind the others. -/
theorem Shows.add (env : Env) (h : Shows m book as) (hstate : m.state = .add) : ∃ t, transition env m = some t ∧
    Shows t (book ++ [(stored (enteredTexts (env.arrays m.heap) m.stdin).1,
      stored (enteredTexts (env.arrays m.heap) m.stdin).2.1, stored (enteredTexts (env.arrays m.heap) m.stdin).2.2)])
      (as ++ [env.alloc m.heap]) ∧ t.state = .menu ∧ t.stdin = skipEntry m.stdin := by
  have hfresh := env.fresh m.heap
  obtain ⟨texts, htexts⟩ : ∃ texts, enteredTexts (env.arrays m.heap) m.stdin = texts := ⟨_, rfl⟩
  obtain ⟨g, hadd, hchain, hold, hdata⟩ := addEntry_spec h.linked hfresh (env.raw m.heap) texts.1 texts.2.1 texts.2.2
  have hrest : (inputField (env.arrays m.heap).phoneNumber (inputField (env.arrays m.heap).lastName
      (inputField (env.arrays m.heap).firstName m.stdin).2).2).2 = skipEntry m.stdin := by
    rw [skipEntry, inputField_rest _ [], inputField_rest _ [] (inputField (env.arrays m.heap).firstName m.stdin).2,
      inputField_rest _ [] m.stdin]
  have htrans : transition env m = some ⟨⟨(as ++ [env.alloc m.heap]).head?, (m.pb.size + 1) % sizeValues,
      (m.pb.latestId + 1) % sizeValues⟩, g, .menu, skipEntry m.stdin⟩ := by
    rw [transition, hstate]
    simp only [phonebookEntryInput]
    rw [hrest]
    have hadd' := hadd
    rw [← htexts] at hadd'
    simp only [enteredTexts] at hadd'
    rw [hadd', Option.map_some, Option.map_some]
  refine ⟨_, htrans, ⟨⟨hchain, h.linked.nodup_concat hfresh, rfl⟩, ?_, ?_⟩, rfl, rfl⟩
  · have hkept : as.map (textsAt g) = as.map (textsAt m.heap) := List.map_congr_left fun a ha => by
      rw [textsAt_eq, textsAt_eq, hold a fun heq => hfresh (heq ▸ h.linked.mem ha)]
    rw [List.map_append, List.map_append, hkept, h.texts, List.map_singleton, List.map_singleton, textsAt_eq, hdata,
      htexts]
    rfl
  · rw [List.length_append, List.length_singleton]
    show (m.pb.size + 1) % sizeValues = _
    rw [h.size, Nat.mod_add_mod]

/-- **A round is a step of the list**, and is never stuck. -/
theorem Shows.round (env : Env) (h : Shows m book as) : ∃ t book' as', round env m () = some t ∧
    run bookStep book (seen env m ()) = some book' ∧ Shows t book' as' := by
  unfold Pb.round seen
  cases hstate : m.state with
  | menu =>
    refine ⟨_, book, as, transition_menu hstate, ?_, ⟨h.linked, h.texts, h.size⟩⟩
    rw [Run.run_cons, bookStep, if_pos h.size]
    rfl
  | add =>
    obtain ⟨t, ht, hshows, -, -⟩ := h.add env hstate
    exact ⟨t, _, _, ht, rfl, hshows⟩
  | print =>
    refine ⟨_, book, as, transition_print h.linked hstate, ?_, ⟨h.linked, h.texts, h.size⟩⟩
    rw [h.printAllEntries]
    show run bookStep book [.printed book] = _
    rw [Run.run_cons, bookStep, if_pos rfl]
    rfl
  | inputErr => exact ⟨_, book, as, transition_inputErr hstate, rfl, ⟨h.linked, h.texts, h.size⟩⟩
  | exit => exact ⟨m, book, as, by rw [transition, hstate], rfl, h⟩

/-! ## Any number of rounds -/

/-- At `EXIT` a round changes nothing. -/
theorem phonebookInteractive_eq (env : Env) : ∀ (n : Nat) (m : Interactive),
    phonebookInteractive env n m = run (round env) m (List.replicate n ())
  | 0, m => rfl
  | n + 1, m => by
    rw [List.replicate_succ, Run.run_cons, phonebookInteractive]
    by_cases hexit : m.state = .exit
    · have hround : round env m () = some m := by rw [round, transition, hexit]
      rw [if_pos hexit, hround, Option.bind_some, ← phonebookInteractive_eq env n m]
      cases n with
      | zero => rfl
      | succ n => rw [phonebookInteractive, if_pos hexit]
    · rw [if_neg hexit, round]
      congr 1
      funext t
      exact phonebookInteractive_eq env n t

theorem Shows.rounds (env : Env) : ∀ (n : Nat) {m : Interactive} {book : List Texts} {as : List Addr}, Shows m book as →
    ∃ t book' as', run (Pb.round env) m (List.replicate n ()) = some t ∧
      run bookStep book (trace (Pb.round env) (seen env) m (List.replicate n ())) = some book' ∧ Shows t book' as'
  | 0, m, book, as, h => ⟨m, book, as, rfl, rfl, h⟩
  | n + 1, m, book, as, h => by
    obtain ⟨t, book', as', ht, hbook, hshows⟩ := h.round env
    obtain ⟨u, book'', as'', hu, hbook', hshows'⟩ := Shows.rounds env n hshows
    refine ⟨u, book'', as'', ?_, ?_, hshows'⟩
    · rw [List.replicate_succ, Run.run_cons, ht, Option.bind_some, hu]
    · rw [List.replicate_succ, Run.trace_cons ht, Run.run_append, hbook, Option.bind_some, hbook']

/-- **The interactive phonebook is a list of entries**: for every input and after any number of rounds, no round has
touched memory that is not the book's, what was seen is what can be seen of the list, and the list is the book. -/
theorem session_is_book (env : Env) (stdin : List Byte) (n : Nat) :
    ∃ t book, phonebookInteractive env n ⟨phonebookCreate, ∅, .menu, stdin⟩ = some t ∧
      run bookStep [] (trace (round env) (seen env) ⟨phonebookCreate, ∅, .menu, stdin⟩ (List.replicate n ())) =
        some book ∧
      printAllEntries t.pb t.heap = some book := by
  obtain ⟨t, book, as, hrun, hbook, hshows⟩ := (shows_create stdin).rounds env n
  exact ⟨t, book, by rw [phonebookInteractive_eq, hrun], hbook, hshows.printAllEntries⟩

/-! ## A session typed line by line -/

/-- A choice in the menu other than the last one, with the lines typed after it. -/
inductive Command where
  | print
  | add (first last number : List Byte)
deriving DecidableEq, Repr

/-- The command as it is typed. -/
def Command.lines : Command → List Byte
  | .print => chr '1' :: [newline]
  | .add first last number => chr '2' :: newline :: threeLines first last number []

/-- The session: the commands, then the 3. -/
def typed : List Command → List Byte
  | [] => chr '3' :: [newline]
  | c :: cs => c.lines ++ typed cs

/-- A text that is a line and fits, with its newline. -/
def Fits (line : List Byte) : Prop := newline ∉ line ∧ 0 ∉ line ∧ line.length ≤ 18

def Command.Proper : Command → Prop
  | .print => True
  | .add first last number => Fits first ∧ Fits last ∧ Fits number

/-- The entries a session prints, where `book` holds some already. -/
def prints : List Command → List Texts → List (List Texts)
  | [], _ => []
  | .print :: cs, book => book :: prints cs book
  | .add first last number :: cs, book =>
    prints cs (book ++ [(first ++ [newline], last ++ [newline], number ++ [newline])])

/-- What has been printed. -/
def printedIn (es : List Seen) : List (List Texts) :=
  es.filterMap fun
    | .printed texts => some texts
    | _ => none

/-- A digit on a line of its own. -/
theorem scanfInt_digit (wide : Int → Int) {d : Byte} (hdigit : isdigit d = true) (hspace : isspace d = false)
    (hminus : d ≠ chr '-') (hplus : d ≠ chr '+') (rest : List Byte) :
    scanfInt wide 0 (d :: newline :: rest) = (toInt wide (1 * decimal [d]), newline :: rest) := by
  have hnewline : ¬ isdigit newline = true := by decide
  have hsign : scanSign (d :: newline :: rest) = (1, d :: newline :: rest) := by
    rw [scanSign, if_neg hminus, if_neg hplus]
  rw [scanfInt, List.dropWhile_cons_of_neg (by rw [hspace]; decide), hsign]
  dsimp only
  rw [List.takeWhile_cons_of_pos hdigit, List.takeWhile_cons_of_neg hnewline, List.dropWhile_cons_of_pos hdigit,
    List.dropWhile_cons_of_neg hnewline, if_neg (List.cons_ne_nil _ _)]

/-- A choice on a line of its own. -/
theorem menuInput_digit (wide : Int → Int) {d : Byte} (hdigit : isdigit d = true) (hspace : isspace d = false)
    (hminus : d ≠ chr '-') (hplus : d ≠ chr '+') {n : Nat} (hn : decimal [d] = n) (hlt : n < 10) (rest : List Byte) :
    phonebookMenuInput wide (d :: newline :: rest) =
      (if (n : Int) = 1 then .print else if (n : Int) = 2 then .add else if (n : Int) = 3 then .exit else .inputErr,
        rest) := by
  have hvalue : toInt wide (1 * decimal [d]) = n := by
    rw [hn, Int.one_mul, toInt, if_pos (by omega)]
  rw [phonebookMenuInput, scanfInt_digit wide hdigit hspace hminus hplus]
  dsimp only
  rw [hvalue, List.tail_cons]

theorem Fits.stored {line : List Byte} (h : Fits line) : stored (cstr (line ++ [newline])) = line ++ [newline] := by
  obtain ⟨-, h0, hlen⟩ := h
  have hfull : cstr (line ++ [newline]) = line ++ [newline] := by
    apply cstr_eq_self
    rw [List.mem_append, not_or]
    exact ⟨h0, by decide⟩
  rw [hfull, Pb.stored, if_pos]
  rw [List.length_append, List.length_singleton, arrSize]
  omega

/-- The three lines of an entry are what is entered. -/
theorem enteredTexts_threeLines {first last number : List Byte} (h₁ : Fits first) (h₂ : Fits last) (h₃ : Fits number)
    (arrays : Arrays) (rest : List Byte) :
    enteredTexts arrays (threeLines first last number rest) =
      (cstr (first ++ [newline]), cstr (last ++ [newline]), cstr (number ++ [newline])) ∧
    skipEntry (threeLines first last number rest) = rest := by
  have hlens : first.length ≤ 18 ∧ last.length ≤ 18 ∧ number.length ≤ 18 := ⟨h₁.2.2, h₂.2.2, h₃.2.2⟩
  constructor
  · rcases inputFields_threeLines h₁.1 h₂.1 h₃.1 arrays rest with ⟨-, hf₁, hf₂, hf₃⟩ | ⟨hlong, -⟩
    · simp only [enteredTexts, hf₁, hf₂, hf₃]
    · exact absurd hlens hlong
  · rcases inputFields_threeLines h₁.1 h₂.1 h₃.1 ⟨[], [], []⟩ rest with ⟨-, hf₁, hf₂, hf₃⟩ | ⟨hlong, -⟩
    · rw [skipEntry, hf₁, hf₂, hf₃]
    · exact absurd hlens hlong

theorem threeLines_append (first last number rest : List Byte) :
    threeLines first last number [] ++ rest = threeLines first last number rest := by
  simp [threeLines]

/-- The rounds of a session that is typed, from a menu on. -/
theorem Shows.commands (env : Env) : ∀ (cs : List Command) {m : Interactive} {book : List Texts} {as : List Addr},
    Shows m book as → m.state = .menu → m.stdin = typed cs → (∀ c ∈ cs, c.Proper) →
    ∃ t, run (Pb.round env) m (List.replicate (2 * cs.length + 1) ()) = some t ∧ t.state = .exit ∧ t.stdin = [] ∧
      printedIn (trace (Pb.round env) (seen env) m (List.replicate (2 * cs.length + 1) ())) = prints cs book
  | [], m, book, as, h, hmenu, hstdin, _ => by
    have hround : Pb.round env m () = some { m with state := .exit, stdin := [] } := by
      rw [Pb.round, transition_menu hmenu, hstdin, typed, menuInput_digit env.wide (d := chr '3') (n := 3) (by decide)
        (by decide) (by decide) (by decide) (by decide) (by decide)]
      rfl
    refine ⟨_, by rw [List.length_nil, List.replicate_succ, Run.run_cons, hround]; rfl, rfl, rfl, ?_⟩
    rw [List.length_nil, List.replicate_succ, Run.trace_cons hround, seen, hmenu]
    rfl
  | .print :: cs, m, book, as, h, hmenu, hstdin, hproper => by
    have hround : Pb.round env m () = some { m with state := .print, stdin := typed cs } := by
      rw [Pb.round, transition_menu hmenu, hstdin, typed, Command.lines, List.cons_append, List.cons_append,
        List.nil_append, menuInput_digit env.wide (d := chr '1') (n := 1) (by decide) (by decide) (by decide)
        (by decide) (by decide) (by decide)]
      rfl
    have hshows : Shows { m with state := .print, stdin := typed cs } book as := ⟨h.linked, h.texts, h.size⟩
    have hround' : Pb.round env { m with state := .print, stdin := typed cs } () =
        some { m with state := .menu, stdin := typed cs } := transition_print hshows.linked rfl
    obtain ⟨t, hrun, hexit, hnil, hprints⟩ := Shows.commands env cs (m := { m with state := .menu, stdin := typed cs })
      ⟨h.linked, h.texts, h.size⟩ rfl rfl fun c hc => hproper c (List.mem_cons_of_mem _ hc)
    have hlen : 2 * (Command.print :: cs).length + 1 = 2 * cs.length + 1 + 1 + 1 := by
      rw [List.length_cons]
      omega
    refine ⟨t, ?_, hexit, hnil, ?_⟩
    · rw [hlen, List.replicate_succ, List.replicate_succ, Run.run_cons, hround, Option.bind_some, Run.run_cons, hround',
        Option.bind_some, hrun]
    · rw [hlen, List.replicate_succ, List.replicate_succ, Run.trace_cons hround, Run.trace_cons hround']
      have hseen : seen env { m with state := .print, stdin := typed cs } () = [.printed book] := by
        rw [seen, hshows.printAllEntries]
        rfl
      have hseen' : seen env m () = [.menu m.pb.size] := by rw [seen, hmenu]
      rw [hseen, hseen', prints, ← hprints]
      rfl
  | .add first last number :: cs, m, book, as, h, hmenu, hstdin, hproper => by
    obtain ⟨hfirst, hlast, hnumber⟩ := hproper _ List.mem_cons_self
    have hstdin' : m.stdin = chr '2' :: newline :: threeLines first last number (typed cs) := by
      rw [hstdin, typed, Command.lines, List.cons_append, List.cons_append, threeLines_append]
    have hround :
        Pb.round env m () = some { m with state := .add, stdin := threeLines first last number (typed cs) } := by
      rw [Pb.round, transition_menu hmenu, hstdin', menuInput_digit env.wide (d := chr '2') (n := 2) (by decide)
        (by decide) (by decide) (by decide) (by decide) (by decide)]
      rfl
    have hshows : Shows { m with state := .add, stdin := threeLines first last number (typed cs) } book as :=
      ⟨h.linked, h.texts, h.size⟩
    obtain ⟨u, hround', hadded, humenu, hustdin⟩ := hshows.add env rfl
    obtain ⟨htexts, hskip⟩ := enteredTexts_threeLines hfirst hlast hnumber (env.arrays m.heap) (typed cs)
    simp only [htexts, hfirst.stored, hlast.stored, hnumber.stored] at hadded
    obtain ⟨t, hrun, hexit, hnil, hprints⟩ := Shows.commands env cs hadded humenu (hustdin.trans hskip) fun c hc =>
      hproper c (List.mem_cons_of_mem _ hc)
    have hlen : 2 * (Command.add first last number :: cs).length + 1 = 2 * cs.length + 1 + 1 + 1 := by
      rw [List.length_cons]
      omega
    refine ⟨t, ?_, hexit, hnil, ?_⟩
    · rw [hlen, List.replicate_succ, List.replicate_succ, Run.run_cons, hround, Option.bind_some, Run.run_cons,
        show Pb.round env _ () = some u from hround', Option.bind_some, hrun]
    · rw [hlen, List.replicate_succ, List.replicate_succ, Run.trace_cons hround,
        Run.trace_cons (show Pb.round env _ () = some u from hround')]
      have hseen' : seen env m () = [.menu m.pb.size] := by rw [seen, hmenu]
      rw [hseen', prints, ← hprints]
      rfl

/-- **A session is read back as it was typed**: after two rounds for each command and one for the 3 the phonebook has
read the input to its end and exited, and every print has shown the entries typed before it, each text with the newline
`fgets` has kept. -/
theorem session_of_commands (env : Env) (cs : List Command) (hproper : ∀ c ∈ cs, c.Proper) :
    ∃ t, phonebookInteractive env (2 * cs.length + 1) ⟨phonebookCreate, ∅, .menu, typed cs⟩ = some t ∧
      t.state = .exit ∧ t.stdin = [] ∧
      printedIn (trace (round env) (seen env) ⟨phonebookCreate, ∅, .menu, typed cs⟩
        (List.replicate (2 * cs.length + 1) ())) = prints cs [] := by
  rw [phonebookInteractive_eq]
  exact (shows_create (typed cs)).commands env cs rfl rfl hproper

/-- Two entries, and a print after each of them. -/
def twoEntries : List Command :=
  [.add (str ['a']) (str ['b']) (str ['1']), .print, .add (str ['c']) [] (str ['2']), .print]

theorem session_of_twoEntries : ∃ t, phonebookInteractive freshEnv 9 ⟨phonebookCreate, ∅, .menu, typed twoEntries⟩ =
    some t ∧ t.state = .exit := by
  obtain ⟨t, hrun, hexit, -⟩ :=
    session_of_commands freshEnv twoEntries (by simp [twoEntries, Command.Proper, Fits]; decide)
  exact ⟨t, hrun, hexit⟩

end Pb
end Eltex
