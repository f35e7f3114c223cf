import EltexTasks.PhonebookMenu
import EltexTasks.PrintMatrix
import Mathlib.Logic.Function.Iterate
/-!
# Calculator — the menu over the plugins

ldl_calculator/main.c: `calc_menu`, over functions that do nothing but give a value, as those of add.c, subtract.c,
multiply.c and divide.c.  Nothing looks at what `scanf` returns: once a turn reads nothing, every later one shows its
line again (`calc_menu_settles`), so the menu ends within one turn more than the input has bytes, or never.
-/
namespace Eltex
namespace Calculator

open Pb (isspace isdigit scanSign scanfInt toInt takeWhile_append_of_head dropWhile_append_of_head)

/-! ## The functions -/

/-- A `binary_func`; `none` where its result is no `int`, or the division traps. -/
abbrev BinaryFunc := Int → Int → Option Int

def intRange (n : Int) : Option Int := if -2 ^ 31 ≤ n ∧ n < 2 ^ 31 then some n else none

def add : BinaryFunc := fun a b => intRange (a + b)

def subtract : BinaryFunc := fun a b => intRange (a - b)

def multiply : BinaryFunc := fun a b => intRange (a * b)

def divide : BinaryFunc := fun a b => if b = 0 then none else intRange (a.tdiv b)

/-- An element of the array that `load_funcs` has filled; `none` is a NULL `p_func`. -/
structure PluginData where
  pFunc : Option BinaryFunc
  funcName : CString

/-! ## The menu -/

/-- `"%s(%d, %d) = %d\n\n"` -/
structure Line where
  funcName : CString
  a : Int
  b : Int
  value : Int
deriving DecidableEq, Repr

inductive Status where
  | running
  | exited
  | crashed
deriving DecidableEq, Repr

structure Menu where
  status : Status
  input1 : Int
  a : Int
  b : Int
  stdin : List Byte
  shown : List Line
deriving DecidableEq, Repr

def start (stdin : List Byte) : Menu :=
  { status := .running, input1 := 0, a := 0, b := 0, stdin := stdin, shown := [] }

/-- A `%d` finds a number. -/
def scanned (stdin : List Byte) : Bool := (scanSign (stdin.dropWhile isspace)).2.takeWhile isdigit != []

/-- `scanf("%d%d", &a, &b)`: the second number is looked for only behind a first one. -/
def scanfTwo (wide : Int → Int) (a b : Int) (stdin : List Byte) : Int × Int × List Byte :=
  let (a', rest) := scanfInt wide a stdin
  if scanned stdin then
    let (b', rest) := scanfInt wide b rest
    (a', b', rest)
  else (a', b, rest)

variable (funcArr : List PluginData) (wide : Int → Int)

/-- A turn of the loop of `calc_menu`. -/
def turn (m : Menu) : Menu :=
  match m.status with
  | .running =>
    let (input1, stdin) := scanfInt wide m.input1 m.stdin
    if input1 ≥ funcArr.length ∨ input1 < 0 then { m with status := .exited, input1 := input1, stdin := stdin }
    else
      let (a, b, stdin) := scanfTwo wide m.a m.b stdin
      match funcArr[input1.toNat]? with
      | none => { m with status := .crashed }
      | some slot =>
        match slot.pFunc.bind fun pFunc => pFunc a b with
        | none => { m with status := .crashed }
        | some value => { m with
            input1 := input1, a := a, b := b, stdin := stdin, shown := m.shown ++ [⟨slot.funcName, a, b, value⟩] }
  | .exited => m
  | .crashed => m

/-- `calc_menu` after `n` turns. -/
def calcMenu (n : Nat) (stdin : List Byte) : Menu := (turn funcArr wide)^[n] (start stdin)

/-! ## A turn that reads nothing -/

variable {funcArr wide} {m t : Menu}

theorem turn_of_not_running (h : m.status ≠ .running) : turn funcArr wide m = m := by
  unfold turn
  split
  · rename_i hrunning
    exact absurd hrunning h
  · rfl
  · rfl

theorem scanSign_of_length {s : List Byte} (h : s.length ≤ (scanSign s).2.length) : (scanSign s).2 = s := by
  cases s with
  | nil => rfl
  | cons b s =>
    rw [scanSign] at h ⊢
    by_cases hminus : b = chr '-'
    · rw [if_pos hminus] at h
      exact absurd h (Nat.not_succ_le_self _)
    · by_cases hplus : b = chr '+'
      · rw [if_neg hminus, if_pos hplus] at h
        exact absurd h (Nat.not_succ_le_self _)
      · rw [if_neg hminus, if_neg hplus]

/-- A number that is found takes at least a byte. -/
theorem scanfInt_of_length (input : Int) {stdin : List Byte} (h : stdin.length ≤ (scanfInt wide input stdin).2.length) :
    scanfInt wide input stdin = (input, stdin) ∧ scanned stdin = false := by
  have hsign := Pb.length_scanSign_le (stdin.dropWhile isspace)
  have hspace := List.length_dropWhile_le isspace stdin
  have hnumber := List.length_dropWhile_le isdigit (scanSign (stdin.dropWhile isspace)).2
  unfold scanfInt at h ⊢
  unfold scanned
  by_cases hnone : (scanSign (stdin.dropWhile isspace)).2.takeWhile isdigit = []
  · dsimp only at h ⊢
    rw [if_pos hnone] at h ⊢
    have hdrop : stdin.dropWhile isspace = stdin :=
      (List.dropWhile_suffix isspace).eq_of_length (Nat.le_antisymm hspace (Nat.le_trans h hsign))
    have hsame : (scanSign (stdin.dropWhile isspace)).2 = stdin := by
      rw [hdrop] at h ⊢
      exact scanSign_of_length h
    rw [hnone, hsame]
    exact ⟨rfl, rfl⟩
  · dsimp only at h
    rw [if_neg hnone] at h
    have hsplit := congrArg List.length
      (@List.takeWhile_append_dropWhile _ isdigit (scanSign (stdin.dropWhile isspace)).2)
    rw [List.length_append] at hsplit
    have hpos := List.length_pos_iff.2 hnone
    change _ ≤ ((scanSign (stdin.dropWhile isspace)).2.dropWhile isdigit).length at h
    omega

theorem length_scanfTwo_le (a b : Int) (stdin : List Byte) : (scanfTwo wide a b stdin).2.2.length ≤ stdin.length := by
  have hone := Pb.length_scanfInt_le wide a stdin
  have htwo := Pb.length_scanfInt_le wide b (scanfInt wide a stdin).2
  unfold scanfTwo
  simp only
  split
  · exact Nat.le_trans htwo hone
  · exact hone

/-- The menu has come to its end, or shows the same line in every turn. -/
def Settled (m : Menu) : Prop :=
  m.status ≠ .running ∨ ∃ line, turn funcArr wide m = { m with shown := m.shown ++ [line] }

/-- **A turn reads something, or settles the menu.** -/
theorem turn_cases (m : Menu) : (turn funcArr wide m).stdin.length < m.stdin.length ∨
    @Settled funcArr wide (turn funcArr wide m) := by
  by_cases hrunning : m.status = .running
  · obtain ⟨next, hnext⟩ : ∃ next, turn funcArr wide m = next := ⟨_, rfl⟩
    have hturn := hnext
    rw [turn, hrunning] at hturn
    simp only at hturn
    split at hturn
    · right
      rw [hnext, ← hturn]
      exact .inl nofun
    · rename_i hvalid
      split at hturn
      · right
        rw [hnext, ← hturn]
        exact .inl nofun
      · rename_i slot hslot
        split at hturn
        · right
          rw [hnext, ← hturn]
          exact .inl nofun
        · rename_i value hvalue
          have hone := Pb.length_scanfInt_le wide m.input1 m.stdin
          have htwo := @length_scanfTwo_le wide m.a m.b (scanfInt wide m.input1 m.stdin).2
          rw [hnext, ← hturn]
          rcases Nat.lt_or_ge (scanfTwo wide m.a m.b (scanfInt wide m.input1 m.stdin).2).2.2.length m.stdin.length with
            hlt | hge
          · exact .inl hlt
          · -- neither call of `scanf` has read a byte, so the next turn is the same
            right
            obtain ⟨hfirst, hnone⟩ := @scanfInt_of_length wide m.input1 m.stdin (Nat.le_trans hge htwo)
            have hsecond : scanfTwo wide m.a m.b m.stdin = (m.a, m.b, m.stdin) := by
              rw [hfirst] at hge
              unfold scanfTwo at hge ⊢
              simp only [hnone, Bool.false_eq_true, if_false] at hge ⊢
              rw [(scanfInt_of_length m.a hge).1]
            rw [hfirst] at hvalid hslot hvalue ⊢
            dsimp only at hvalid hslot hvalue ⊢
            rw [hsecond] at hvalue ⊢
            dsimp only at hvalue ⊢
            refine .inr ⟨⟨slot.funcName, m.a, m.b, value⟩, ?_⟩
            rw [turn]
            simp only [hfirst, hvalid, if_false, hsecond, hslot, hvalue]
  · right
    rw [turn_of_not_running hrunning]
    exact .inl hrunning

/-! ## What comes of an input -/

/-- A turn does not look at what has been shown. -/
theorem turn_shown (m : Menu) (shown : List Line) : turn funcArr wide { m with shown := shown } =
    { turn funcArr wide { m with shown := [] } with
      shown := shown ++ (turn funcArr wide { m with shown := [] }).shown } := by
  unfold turn
  cases m.status with
  | exited => simp
  | crashed => simp
  | running =>
    dsimp only
    split
    · simp
    · split
      · simp
      · split
        · simp
        · simp

theorem turn_of_settled {line : Line} (h : turn funcArr wide m = { m with shown := m.shown ++ [line] })
    (shown : List Line) : turn funcArr wide { m with shown := shown } = { m with shown := shown ++ [line] } := by
  have hself := @turn_shown funcArr wide m m.shown
  rw [show ({ m with shown := m.shown } : Menu) = m from rfl, h] at hself
  have hrest := congrArg (fun t : Menu => ({ t with shown := [] } : Menu)) hself
  have hline := List.append_cancel_left (congrArg Menu.shown hself)
  rw [turn_shown]
  dsimp only at hrest hline
  rw [← hline]
  have hwith := congrArg (fun t : Menu => ({ t with shown := shown ++ [line] } : Menu)) hrest.symm
  exact hwith

theorem Settled.iterate (h : @Settled funcArr wide m) :
    (m.status ≠ .running ∧ ∀ n, (turn funcArr wide)^[n] m = m) ∨
      ∃ line, ∀ n, (turn funcArr wide)^[n] m = { m with shown := m.shown ++ List.replicate n line } := by
  rcases h with h | ⟨line, h⟩
  · exact .inl ⟨h, fun n => Function.iterate_fixed (turn_of_not_running h) n⟩
  · refine .inr ⟨line, fun n => ?_⟩
    induction n with
    | zero => rw [List.replicate_zero, List.append_nil]; rfl
    | succ n ih =>
      rw [Function.iterate_succ_apply', ih, turn_of_settled h, List.append_assoc, List.replicate_succ']

theorem Settled.turns (h : @Settled funcArr wide m) (n : Nat) : @Settled funcArr wide ((turn funcArr wide)^[n] m) := by
  rcases h with h | ⟨line, h⟩
  · rw [Function.iterate_fixed (turn_of_not_running h)]
    exact .inl h
  · rcases Settled.iterate (.inr ⟨line, h⟩) with ⟨hstatus, hsame⟩ | ⟨line', hlines⟩
    · rw [hsame]
      exact .inl hstatus
    · rw [hlines]
      exact .inr ⟨line, turn_of_settled h _⟩

theorem settled_of_length : ∀ (k : Nat) (m : Menu), m.stdin.length < k →
    @Settled funcArr wide ((turn funcArr wide)^[k] m)
  | k + 1, m, hlt => by
    rw [Function.iterate_succ_apply]
    rcases @turn_cases funcArr wide m with hless | hsettled
    · exact settled_of_length k _ (by omega)
    · exact hsettled.turns k

/-- **What comes of any input** is decided by one turn more than it has bytes: by then the menu has ended, or it goes on
for ever and shows the same line in every turn. -/
theorem calc_menu_settles (funcArr : List PluginData) (wide : Int → Int) (stdin : List Byte) :
    ((calcMenu funcArr wide (stdin.length + 1) stdin).status ≠ .running ∧
      ∀ n, calcMenu funcArr wide (n + (stdin.length + 1)) stdin = calcMenu funcArr wide (stdin.length + 1) stdin) ∨
    ∃ line, ∀ n, calcMenu funcArr wide (n + (stdin.length + 1)) stdin =
      { calcMenu funcArr wide (stdin.length + 1) stdin with
        shown := (calcMenu funcArr wide (stdin.length + 1) stdin).shown ++ List.replicate n line } := by
  have hsettled : @Settled funcArr wide (calcMenu funcArr wide (stdin.length + 1) stdin) :=
    settled_of_length (stdin.length + 1) (start stdin) (Nat.lt_succ_self _)
  rcases hsettled.iterate with ⟨hstatus, hsame⟩ | ⟨line, hlines⟩
  · refine .inl ⟨hstatus, fun n => ?_⟩
    rw [calcMenu, Function.iterate_add_apply]
    exact hsame n
  · refine .inr ⟨line, fun n => ?_⟩
    rw [calcMenu, Function.iterate_add_apply]
    exact hlines n

/-! ## Numbers that are typed -/

theorem toNat_chr_of_isDigit {c : Char} (h : c.isDigit = true) : (chr c).toNat = c.toNat ∧ isdigit (chr c) = true := by
  have hrange : 48 ≤ c.toNat ∧ c.toNat ≤ 57 := by
    simpa [Char.isDigit, UInt32.le_iff_toNat_le] using h
  have hbyte : (chr c).toNat = c.toNat := by
    show c.val.toUInt8.toNat = c.toNat
    rw [UInt32.toNat_toUInt8]
    exact Nat.mod_eq_of_lt (Nat.lt_of_le_of_lt hrange.2 (by decide))
  refine ⟨hbyte, ?_⟩
  have hzero : (chr '0').toNat = 48 := rfl
  have hnine : (chr '9').toNat = 57 := rfl
  rw [isdigit, Bool.and_eq_true, decide_eq_true_eq, decide_eq_true_eq, UInt8.le_iff_toNat_le, UInt8.le_iff_toNat_le,
    hbyte, hzero, hnine]
  exact hrange

theorem decimal_toDigits (n : Nat) : Pb.decimal (str (Nat.toDigits 10 n)) = n := by
  have hfold : ∀ (cs : List Char) (k : Nat), (∀ c ∈ cs, c.isDigit = true) →
      (str cs).foldl (fun n d => 10 * n + (d.toNat - (chr '0').toNat)) k = Nat.ofDigitChars 10 cs k := by
    intro cs
    induction cs with
    | nil => intro k _; rw [Nat.ofDigitChars_nil]; rfl
    | cons c cs ih =>
      intro k hdigits
      have hc := (toNat_chr_of_isDigit (hdigits c List.mem_cons_self)).1
      rw [Nat.ofDigitChars_cons, ← ih _ fun d hd => hdigits d (List.mem_cons_of_mem c hd)]
      show (str cs).foldl _ (10 * k + ((chr c).toNat - (chr '0').toNat)) = _
      rw [hc]
      rfl
  rw [Pb.decimal, hfold _ 0 fun c hc => Nat.isDigit_of_mem_toDigits (by decide) (by decide) hc,
    Nat.ofDigitChars_ten_toDigits]

/-- What stands behind a number. -/
def Ends (rest : List Byte) : Prop := ∀ b, rest.head? = some b → isdigit b = false

theorem takeWhile_digits {cs : List Char} (h : ∀ c ∈ cs, c.isDigit = true) {rest : List Byte} (hrest : Ends rest) :
    (str cs ++ rest).takeWhile isdigit = str cs ∧ (str cs ++ rest).dropWhile isdigit = rest := by
  have hall : ∀ b ∈ str cs, isdigit b = true := by
    intro b hb
    obtain ⟨c, hc, rfl⟩ := List.mem_map.1 hb
    exact (toNat_chr_of_isDigit (h c hc)).2
  exact ⟨takeWhile_append_of_head hall hrest, dropWhile_append_of_head hall hrest⟩

/-- **`scanf` reads back what `printf` writes** of an `int`, behind white space. -/
theorem scanfInt_decimal (wide : Int → Int) (input : Int) {v : Int} (hge : -2 ^ 31 ≤ v) (hlt : v < 2 ^ 31)
    {space rest : List Byte} (hspace : ∀ b ∈ space, isspace b = true) (hrest : Ends rest) :
    scanfInt wide input (space ++ (str (PrintMatrix.decimal v) ++ rest)) = (v, rest) ∧
      scanned (space ++ (str (PrintMatrix.decimal v) ++ rest)) = true := by
  have hdigits : ∀ c ∈ Nat.toDigits 10 v.natAbs, c.isDigit = true := fun c hc =>
    Nat.isDigit_of_mem_toDigits (by decide) (by decide) hc
  obtain ⟨htake, hdrop⟩ := takeWhile_digits hdigits hrest
  have hne : str (Nat.toDigits 10 v.natAbs) ≠ [] := fun h => Nat.toDigits_ne_nil (List.map_eq_nil_iff.1 h)
  obtain ⟨d, ds, hcons⟩ := List.exists_cons_of_ne_nil hne
  have hd : isdigit d = true := by
    have hmem : d ∈ str (Nat.toDigits 10 v.natAbs) := by rw [hcons]; exact List.mem_cons_self
    obtain ⟨c, hc, rfl⟩ := List.mem_map.1 hmem
    exact (toNat_chr_of_isDigit (hdigits c hc)).2
  have hbyte : 48 ≤ d.toNat ∧ d.toNat ≤ 57 := by
    rw [isdigit, Bool.and_eq_true, decide_eq_true_eq, decide_eq_true_eq, UInt8.le_iff_toNat_le,
      UInt8.le_iff_toNat_le] at hd
    exact hd
  have hnotspace : isspace d = false := by
    rw [isspace, Bool.or_eq_false_iff, Bool.and_eq_false_iff]
    refine ⟨?_, .inr ?_⟩
    · rw [beq_eq_false_iff_ne]
      rintro rfl
      exact absurd hbyte.1 (by decide)
    · rw [decide_eq_false_iff_not, UInt8.le_iff_toNat_le]
      have : (chr '\r').toNat = 13 := rfl
      omega
  -- the sign and the digits behind the white space
  have hsign : scanSign ((space ++ (str (PrintMatrix.decimal v) ++ rest)).dropWhile isspace) =
      (if v < 0 then -1 else 1, str (Nat.toDigits 10 v.natAbs) ++ rest) := by
    rw [List.dropWhile_append_of_pos hspace, PrintMatrix.decimal]
    by_cases hneg : v < 0
    · rw [if_pos hneg, if_pos hneg]
      have hminus : ¬ isspace (chr '-') = true := by decide
      show scanSign ((chr '-' :: (str (Nat.toDigits 10 v.natAbs) ++ rest)).dropWhile isspace) = _
      rw [List.dropWhile_cons_of_neg hminus, scanSign, if_pos rfl]
    · rw [if_neg hneg, if_neg hneg, hcons, List.cons_append,
        List.dropWhile_cons_of_neg (by rw [hnotspace]; exact Bool.false_ne_true), scanSign, if_neg, if_neg]
      · rintro rfl
        exact absurd hbyte.1 (by decide)
      · rintro rfl
        exact absurd hbyte.1 (by decide)
  have hvalue : (if v < 0 then -1 else 1) * (v.natAbs : Int) = v := by
    split <;> omega
  constructor
  · rw [scanfInt, hsign]
    dsimp only
    rw [htake, hdrop, if_neg hne, decimal_toDigits, hvalue, toInt, if_pos ⟨hge, hlt⟩]
  · rw [scanned, hsign]
    dsimp only
    rw [htake]
    exact bne_iff_ne.2 hne

/-! ## A session that is typed -/

/-- A function chosen by its number, and its operands. -/
structure Computation where
  index : Nat
  a : Int
  b : Int
deriving DecidableEq, Repr

/-- The computation as it is typed: three numbers and a newline. -/
def Computation.text (c : Computation) : List Byte :=
  str (PrintMatrix.decimal c.index) ++ (chr ' ' :: (str (PrintMatrix.decimal c.a) ++ (chr ' ' ::
    (str (PrintMatrix.decimal c.b) ++ [newline]))))

/-- Computations and a number past the last function. -/
def typed (last : Nat) : List Computation → List Byte
  | [] => str (PrintMatrix.decimal last) ++ [newline]
  | c :: cs => c.text ++ typed last cs

/-- The computation is one of ints that a function of the array can do, and `line` shows it. -/
def Computation.Shows (funcArr : List PluginData) (c : Computation) (line : Line) : Prop :=
  c.index < 2 ^ 31 ∧ (-2 ^ 31 ≤ c.a ∧ c.a < 2 ^ 31) ∧ (-2 ^ 31 ≤ c.b ∧ c.b < 2 ^ 31) ∧
    ∃ slot : PluginData, funcArr[c.index]? = some slot ∧ ∃ pFunc : BinaryFunc, slot.pFunc = some pFunc ∧
      pFunc c.a c.b = some line.value ∧ line.funcName = slot.funcName ∧ line.a = c.a ∧ line.b = c.b

theorem ends_cons {b : Byte} (h : isdigit b = false) (rest : List Byte) : Ends (b :: rest) := by
  intro b' hb'
  rw [← Option.some.inj hb']
  exact h

/-- The turn that does a computation; what is left in front of it is white space. -/
theorem turn_computation {c : Computation} {line : Line} (h : c.Shows funcArr line) (hrunning : m.status = .running)
    {space rest : List Byte} (hspace : ∀ b ∈ space, isspace b = true) (hstdin : m.stdin = space ++ (c.text ++ rest)) :
    turn funcArr wide m = { m with
      input1 := c.index, a := c.a, b := c.b, stdin := newline :: rest, shown := m.shown ++ [line] } := by
  obtain ⟨hindex, ⟨ha, ha'⟩, ⟨hb, hb'⟩, slot, hslot, pFunc, hfunc, hvalue, hname, hla, hlb⟩ := h
  have hblank : ∀ b ∈ [chr ' '], isspace b = true := List.forall_mem_singleton.2 (by decide)
  have hdigit : isdigit (chr ' ') = false := by decide
  have hnewline : isdigit newline = false := by decide
  obtain ⟨hfirst, -⟩ := scanfInt_decimal wide m.input1 (v := c.index) (by omega) (by omega) hspace
    (ends_cons hdigit
      (str (PrintMatrix.decimal c.a) ++ (chr ' ' :: (str (PrintMatrix.decimal c.b) ++ newline :: rest))))
  obtain ⟨hsecond, hscanned⟩ := scanfInt_decimal wide m.a ha ha' hblank
    (ends_cons hdigit (str (PrintMatrix.decimal c.b) ++ newline :: rest))
  obtain ⟨hthird, -⟩ := scanfInt_decimal wide m.b hb hb' hblank (ends_cons hnewline rest)
  have htext : m.stdin = space ++ (str (PrintMatrix.decimal c.index) ++ chr ' ' :: (str (PrintMatrix.decimal c.a) ++
      (chr ' ' :: (str (PrintMatrix.decimal c.b) ++ newline :: rest)))) := by
    rw [hstdin, Computation.text]
    simp only [List.append_assoc, List.cons_append, List.nil_append]
  have htwo : scanfTwo wide m.a m.b (chr ' ' :: (str (PrintMatrix.decimal c.a) ++
      (chr ' ' :: (str (PrintMatrix.decimal c.b) ++ newline :: rest)))) = (c.a, c.b, newline :: rest) := by
    rw [List.singleton_append] at hsecond hscanned hthird
    rw [scanfTwo, hsecond]
    dsimp only
    rw [if_pos hscanned, hthird]
  have hlt := (List.getElem?_eq_some_iff.1 hslot).1
  obtain ⟨name, a, b, value⟩ := line
  dsimp only at hvalue hname hla hlb
  subst hname hla hlb
  rw [turn, hrunning, htext, hfirst]
  dsimp only
  rw [if_neg (by omega), htwo, Int.toNat_natCast, hslot]
  dsimp only
  rw [hfunc, Option.bind_some, hvalue]

/-- The turns of a session that is typed. -/
theorem turns_typed {last : Nat} (hlast : funcArr.length ≤ last) (hint : last < 2 ^ 31) :
    ∀ (cs : List Computation) (lines : List Line), List.Forall₂ (Computation.Shows funcArr) cs lines →
      ∀ (m : Menu) (space : List Byte), m.status = .running → (∀ b ∈ space, isspace b = true) →
        m.stdin = space ++ typed last cs →
        ((turn funcArr wide)^[cs.length + 1] m).status = .exited ∧
          ((turn funcArr wide)^[cs.length + 1] m).shown = m.shown ++ lines ∧
          ((turn funcArr wide)^[cs.length + 1] m).stdin = [newline]
  | [], _, .nil, m, space, hrunning, hspace, hstdin => by
    have hnewline : isdigit newline = false := by decide
    obtain ⟨hlastRead, -⟩ := scanfInt_decimal wide m.input1 (v := last) (by omega) (by omega) hspace
      (ends_cons hnewline [])
    have hturn : turn funcArr wide m = { m with status := .exited, input1 := last, stdin := [newline] } := by
      rw [turn, hrunning, hstdin, typed, hlastRead]
      dsimp only
      rw [if_pos (by omega)]
    rw [List.length_nil, Function.iterate_one, hturn, List.append_nil]
    exact ⟨rfl, rfl, rfl⟩
  | c :: cs, line :: lines, .cons hc hrest, m, space, hrunning, hspace, hstdin => by
    have hturn : turn funcArr wide m = _ := turn_computation hc hrunning hspace hstdin
    have ih := turns_typed hlast hint cs lines hrest (turn funcArr wide m) [newline] (by rw [hturn]; exact hrunning)
      (List.forall_mem_singleton.2 (by decide)) (by rw [hturn]; rfl)
    rw [List.length_cons, Function.iterate_succ_apply]
    refine ⟨ih.1, ?_, ih.2.2⟩
    rw [ih.2.1, hturn]
    exact List.append_assoc _ _ _

/-- **A session that is typed is done as typed**: each computation is read back, done and shown, and the number past the
last function ends the menu. -/
theorem calc_menu_typed (funcArr : List PluginData) (wide : Int → Int) (cs : List Computation) (lines : List Line)
    (last : Nat) (hshows : List.Forall₂ (Computation.Shows funcArr) cs lines) (hlast : funcArr.length ≤ last)
    (hint : last < 2 ^ 31) :
    (calcMenu funcArr wide (cs.length + 1) (typed last cs)).status = .exited ∧
      (calcMenu funcArr wide (cs.length + 1) (typed last cs)).shown = lines ∧
      (calcMenu funcArr wide (cs.length + 1) (typed last cs)).stdin = [newline] :=
  turns_typed hlast hint cs lines hshows (start (typed last cs)) [] rfl (fun _ h => absurd h List.not_mem_nil) rfl

/-- The two functions of which the plugin names itself. -/
def loaded : List PluginData := [⟨some add, str ['a', 'd', 'd']⟩, ⟨some divide, str ['d', 'i', 'v', 'i', 'd', 'e']⟩]

theorem calc_menu_typed_divide :
    (calcMenu loaded id 2 (typed 2 [⟨1, -7, 2⟩])).shown = [⟨str ['d', 'i', 'v', 'i', 'd', 'e'], -7, 2, -3⟩] :=
  (calc_menu_typed loaded id [⟨1, -7, 2⟩] [⟨str ['d', 'i', 'v', 'i', 'd', 'e'], -7, 2, -3⟩] 2
    (.cons ⟨by decide, by decide, by decide, _, rfl, _, rfl, by decide, rfl, rfl, rfl⟩ .nil) (by decide)
    (by decide)).2.1

end Calculator
end Eltex
