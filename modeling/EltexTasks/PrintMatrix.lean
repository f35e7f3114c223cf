import EltexTasks.Update
import Mathlib.Data.Nat.Log
import Mathlib.Tactic.Linarith
/-!
# PrintMatrix — the numbers of a matrix in columns

spiral_matrix/source/print_matrix.c: `number_length`, `max_element_length`, `print_matrix_int`, with `floor(log10(v))` as
the exact logarithm.  Every element is padded to one more than the longest text (`print_matrix_int_spec`).
-/
namespace Eltex
namespace PrintMatrix

/-- What `printf` writes for `%d`. -/
def decimal (a : Int) : List Char :=
  if a < 0 then '-' :: Nat.toDigits 10 a.natAbs else Nat.toDigits 10 a.natAbs

/-- `number_length`; `abs(INT_MIN)` is undefined. -/
def numberLength (a : Int) : Option Nat :=
  if a = 0 then some 1
  else if a < 0 then
    if a = -2 ^ 31 then none else some (Nat.log 10 a.natAbs + 2)
  else some (Nat.log 10 a.natAbs + 1)

/-- `max_element_length` -/
def maxElementLength (parray : List Int) (size : Nat) : Option Nat :=
  (List.range size).foldlM (fun res i => do
    let a ← parray[i]?
    let length ← numberLength a
    return if length > res then length else res) 1

/-- `max_number_length - num_length + 1`, computed as a `size_t`. -/
def padding (maxNumberLength numLength : Nat) : Nat := (maxNumberLength + 2 ^ 64 - numLength + 1) % 2 ^ 64

/-- The body of the inner loop. -/
def printElement (maxNumberLength : Nat) (a : Int) : List Char :=
  decimal a ++ List.replicate (padding maxNumberLength (decimal a).length) ' '

/-- The inner loop. -/
def printLine (parray : List Int) (width maxNumberLength i : Nat) : Option (List Char) :=
  ((List.range width).mapM fun j => parray[i * width + j]?.map (printElement maxNumberLength)).map List.flatten

/-- `print_matrix_int` -/
def printMatrixInt (parray : List Int) (width height : Nat) : Option (List Char) := do
  let maxNumberLength ← maxElementLength parray (width * height)
  let lines ← (List.range height).mapM (printLine parray width maxNumberLength)
  return (lines.flatMap fun line => line ++ ['\n']) ++ ['\n']

/-! ## The text of a number -/

/-- The number a text is read as. -/
def readInt : List Char → Int
  | '-' :: digits => -(Nat.ofDigitChars 10 digits 0 : Int)
  | digits => Nat.ofDigitChars 10 digits 0

variable {a : Int}

theorem length_toDigits {n : Nat} (hn : n ≠ 0) : (Nat.toDigits 10 n).length = Nat.log 10 n + 1 := by
  have hle := (Nat.length_toDigits_le_iff (show 1 < 10 by decide) (Nat.succ_pos (Nat.log 10 n))).2
    (Nat.lt_pow_succ_log_self (by decide) n)
  have hlow : 10 ^ Nat.log 10 n ≤ n := Nat.pow_log_le_self 10 hn
  rcases Nat.eq_zero_or_pos (Nat.log 10 n) with hzero | hpos
  · have := Nat.length_toDigits_pos (b := 10) (n := n)
    omega
  · have hlt : ¬ (Nat.toDigits 10 n).length ≤ Nat.log 10 n := fun h =>
      Nat.not_lt.2 hlow ((Nat.length_toDigits_le_iff (by decide) hpos).1 h)
    omega

/-- **`number_length` counts what `printf` writes.** -/
theorem numberLength_eq (ha : -2 ^ 31 < a) : numberLength a = some (decimal a).length := by
  unfold numberLength decimal
  split
  next h0 => subst h0; rfl
  next h0 =>
    have hdigits := length_toDigits (show a.natAbs ≠ 0 by omega)
    split
    next hneg => rw [if_neg (by omega), List.length_cons, hdigits]
    next hpos => rw [hdigits]

theorem mem_decimal {c : Char} (hc : c ∈ decimal a) : c = '-' ∨ c.isDigit = true := by
  have hdigits : c ∈ Nat.toDigits 10 a.natAbs → c.isDigit = true := fun h =>
    Nat.isDigit_of_mem_toDigits (by decide) (by decide) h
  unfold decimal at hc
  split at hc
  · exact (List.mem_cons.1 hc).imp_right hdigits
  · exact .inr (hdigits hc)

theorem not_isWhitespace_of_mem_decimal {c : Char} (hc : c ∈ decimal a) : c.isWhitespace = false := by
  rw [Bool.eq_false_iff]
  intro hw
  simp only [Char.isWhitespace, Bool.or_eq_true, decide_eq_true_eq] at hw
  rcases mem_decimal hc with rfl | hd
  · simp at hw
  · obtain ((rfl | rfl) | rfl) | rfl := hw <;> simp at hd

theorem decimal_ne_nil (a : Int) : decimal a ≠ [] := by
  unfold decimal
  split
  · exact List.cons_ne_nil _ _
  · exact Nat.toDigits_ne_nil

theorem readInt_decimal (a : Int) : readInt (decimal a) = a := by
  unfold decimal
  split
  next hneg =>
    rw [readInt, Nat.ofDigitChars_ten_toDigits]
    omega
  next hpos =>
    unfold readInt
    split
    next digits hsign =>
      have hminus : '-'.isDigit = true :=
        Nat.isDigit_of_mem_toDigits (by decide) (by decide) (hsign ▸ List.mem_cons_self)
      simp at hminus
    next =>
      rw [Nat.ofDigitChars_ten_toDigits]
      omega

/-! ## Words -/

/-- The pieces between blanks. -/
def words (text : List Char) : List (List Char) := (text.splitOnP Char.isWhitespace).filter fun word => word ≠ []

theorem words_blank {c : Char} (hc : c.isWhitespace = true) (text : List Char) : words (c :: text) = words text := by
  have hnil : ∀ x ∈ ([] : List Char), x.isWhitespace = false := fun x hx => by cases hx
  have hsplit := List.splitOnP_append_cons_of_forall_mem hnil c hc text
  rw [words, ← List.nil_append (c :: text), hsplit]
  rfl

theorem words_replicate (k : Nat) (text : List Char) : words (List.replicate k ' ' ++ text) = words text := by
  induction k with
  | zero => rfl
  | succ k ih => rw [List.replicate_succ, List.cons_append, words_blank rfl, ih]

theorem words_word {word : List Char} (hne : word ≠ []) (hword : ∀ c ∈ word, c.isWhitespace = false) {c : Char}
    (hc : c.isWhitespace = true) (text : List Char) : words (word ++ c :: text) = word :: words text := by
  rw [words, List.splitOnP_append_cons_of_forall_mem hword c hc, List.filter_cons_of_pos (by simpa using hne)]
  rfl

/-! ## The columns -/

variable {parray : List Int} {L : Nat}

/-- The longest text, as `max_element_length` computes it. -/
theorem maxElementLength_spec (hint : ∀ a ∈ parray, -2 ^ 31 < a) : ∀ size, size ≤ parray.length →
    ∃ L, maxElementLength parray size = some L ∧ 1 ≤ L ∧ (∀ a ∈ parray.take size, (decimal a).length ≤ L) ∧
      (L = 1 ∨ ∃ a ∈ parray.take size, (decimal a).length = L)
  | 0, _ => ⟨1, rfl, Nat.le_refl 1, by simp, .inl rfl⟩
  | size + 1, hsize => by
    obtain ⟨L, hmax, hone, hall, hsome⟩ := maxElementLength_spec hint size (by omega)
    have hget : parray[size]? = some parray[size] := List.getElem?_eq_getElem hsize
    have hlength := numberLength_eq (hint _ (List.getElem_mem hsize))
    have htake : parray.take (size + 1) = parray.take size ++ [parray[size]] := by
      rw [List.take_add_one, hget]
      rfl
    have hstep : maxElementLength parray (size + 1) =
        some (if (decimal parray[size]).length > L then (decimal parray[size]).length else L) := by
      unfold maxElementLength at hmax ⊢
      rw [List.range_succ, List.foldlM_append, hmax]
      simp [hget, hlength]
    refine ⟨_, hstep, ?_, ?_, ?_⟩
    · split <;> omega
    · intro a ha
      rw [htake, List.mem_append, List.mem_singleton] at ha
      rcases ha with ha | rfl
      · have := hall a ha
        split <;> omega
      · split <;> omega
    · rw [htake]
      split
      · exact .inr ⟨parray[size], List.mem_append_right _ List.mem_cons_self, rfl⟩
      · exact hsome.imp_right fun ⟨a, ha, hL⟩ => ⟨a, List.mem_append_left _ ha, hL⟩

theorem length_decimal_le (ha : -2 ^ 31 < a) (ha' : a < 2 ^ 31) : (decimal a).length ≤ 11 := by
  have hdigits : (Nat.toDigits 10 a.natAbs).length ≤ 10 :=
    (Nat.length_toDigits_le_iff (by decide) (by decide)).2 (by omega)
  unfold decimal
  split
  · rw [List.length_cons]
    omega
  · omega

/-- No text is longer than the longest, so the padding does not wrap. -/
theorem padding_eq {maxNumberLength numLength : Nat} (hle : numLength ≤ maxNumberLength)
    (hlt : maxNumberLength < 2 ^ 32) : padding maxNumberLength numLength = maxNumberLength - numLength + 1 := by
  unfold padding
  omega

/-- The elements that row `i` prints. -/
def row (parray : List Int) (width i : Nat) : List Int := (parray.drop (i * width)).take width

theorem mapM_getElem? {β : Type} (f : Int → β) (k : Nat) : ∀ n, k + n ≤ parray.length →
    ((List.range n).mapM fun j => parray[k + j]?.map f) = some (((parray.drop k).take n).map f)
  | 0, _ => by simp
  | n + 1, hn => by
    have hget : parray[k + n]? = some parray[k + n] := List.getElem?_eq_getElem (by omega)
    rw [List.range_succ, List.mapM_append, mapM_getElem? f k n (by omega), List.take_add_one, List.getElem?_drop, hget]
    simp [hget]

/-- A line, without its end. -/
def line (parray : List Int) (width L i : Nat) : List Char := ((row parray width i).map (printElement L)).flatten

section Rows

variable {width height i j : Nat}

theorem row_end (hi : i < height) (hlen : parray.length = width * height) : i * width + width ≤ parray.length := by
  rw [hlen]
  nlinarith

theorem length_row (hi : i < height) (hlen : parray.length = width * height) : (row parray width i).length = width := by
  have := row_end hi hlen
  rw [row, List.length_take, List.length_drop]
  omega

theorem mem_row (ha : a ∈ row parray width i) : a ∈ parray := List.mem_of_mem_drop (List.mem_of_mem_take ha)

theorem printLine_eq (hi : i < height) (hlen : parray.length = width * height) :
    printLine parray width L i = some (line parray width L i) := by
  rw [printLine, mapM_getElem? _ _ _ (row_end hi hlen)]
  rfl

theorem flatMap_row (parray : List Int) (width : Nat) : ∀ height,
    ((List.range height).flatMap fun i => row parray width i) = parray.take (height * width)
  | 0 => by simp
  | height + 1 => by
    rw [List.range_succ, List.flatMap_append, flatMap_row parray width height, Nat.succ_mul, List.take_add]
    simp [row]

end Rows

/-- Every element takes `L + 1` places. -/
structure Fits (L : Nat) (a : Int) : Prop where
  le : (decimal a).length ≤ L
  padding : padding L (decimal a).length = L - (decimal a).length + 1

theorem Fits.length (h : Fits L a) : (printElement L a).length = L + 1 := by
  have := h.le
  rw [printElement, List.length_append, List.length_replicate, h.padding]
  omega

theorem length_flatten_cells : ∀ {cells : List Int}, (∀ a ∈ cells, Fits L a) →
    ((cells.map (printElement L)).flatten).length = cells.length * (L + 1)
  | [], _ => by simp
  | a :: cells, h => by
    rw [List.map_cons, List.flatten_cons, List.length_append, (h a List.mem_cons_self).length,
      length_flatten_cells fun b hb => h b (List.mem_cons_of_mem a hb), List.length_cons, Nat.succ_mul, Nat.add_comm]

/-- The text of element `j` begins `j * (L + 1)` places on. -/
theorem drop_flatten_cells : ∀ {cells : List Int} {j : Nat} {a : Int}, (∀ a ∈ cells, Fits L a) → cells[j]? = some a →
    decimal a ++ [' '] <+: ((cells.map (printElement L)).flatten).drop (j * (L + 1))
  | b :: cells, 0, a, h, hj => by
    obtain rfl : b = a := by simpa using hj
    rw [Nat.zero_mul, List.drop_zero, List.map_cons, List.flatten_cons, printElement, (h b List.mem_cons_self).padding,
      List.replicate_succ]
    exact ⟨List.replicate (L - (decimal b).length) ' ' ++ (cells.map (printElement L)).flatten, by simp⟩
  | b :: cells, j + 1, a, h, hj => by
    have hb := (h b List.mem_cons_self).length
    rw [List.map_cons, List.flatten_cons, Nat.succ_mul, Nat.add_comm, ← List.drop_drop, ← hb, List.drop_left, hb]
    exact drop_flatten_cells (fun c hc => h c (List.mem_cons_of_mem b hc)) (by simpa using hj)

theorem words_cells (text : List Char) : ∀ {cells : List Int}, (∀ a ∈ cells, Fits L a) →
    words ((cells.map (printElement L)).flatten ++ text) = cells.map decimal ++ words text
  | [], _ => rfl
  | a :: cells, h => by
    have hpad := (h a List.mem_cons_self).padding
    rw [List.map_cons, List.flatten_cons, printElement, hpad, List.replicate_succ, List.append_assoc, List.append_assoc,
      List.cons_append, words_word (decimal_ne_nil a) (fun c hc => not_isWhitespace_of_mem_decimal hc) rfl,
      words_replicate, words_cells text fun b hb => h b (List.mem_cons_of_mem a hb)]
    rfl

/-! ## The table -/

variable {width height : Nat}

theorem words_lines (parray : List Int) (width : Nat) (text : List Char) : ∀ {is : List Nat},
    (∀ i ∈ is, ∀ a ∈ row parray width i, Fits L a) →
    words ((is.flatMap fun i => line parray width L i ++ ['\n']) ++ text) =
      (is.flatMap fun i => row parray width i).map decimal ++ words text
  | [], _ => rfl
  | i :: is, h => by
    have ih := words_lines parray width text fun i' hi' => h i' (List.mem_cons_of_mem i hi')
    rw [List.flatMap_cons, List.flatMap_cons, List.append_assoc, List.append_assoc, line,
      words_cells _ (h i List.mem_cons_self), List.singleton_append, words_blank rfl, ih, List.map_append,
      List.append_assoc]

theorem not_newline_of_mem_line {i : Nat} : '\n' ∉ line parray width L i := by
  intro hmem
  obtain ⟨cell, hcell, hc⟩ := List.mem_flatten.1 hmem
  obtain ⟨a, -, rfl⟩ := List.mem_map.1 hcell
  rcases List.mem_append.1 hc with hc | hc
  · have hblank := not_isWhitespace_of_mem_decimal hc
    simp at hblank
  · cases List.eq_of_mem_replicate hc

/-- The lines of the table: as many as rows and all of one length, and element `(i, j)` stands in line `i` from the
place `j * (L + 1)` on. -/
structure Table (parray : List Int) (width height L : Nat) (lines : List (List Char)) : Prop where
  count : lines.length = height
  lengths : ∀ line ∈ lines, line.length = width * (L + 1) ∧ '\n' ∉ line
  cells : ∀ {i j}, i < height → j < width → ∃ (a : Int) (line : List Char), parray[i * width + j]? = some a ∧
    lines[i]? = some line ∧ decimal a ++ [' '] <+: line.drop (j * (L + 1))

theorem table_lines (hlen : parray.length = width * height) (hfits : ∀ a ∈ parray, Fits L a) :
    Table parray width height L ((List.range height).map (line parray width L)) where
  count := by rw [List.length_map, List.length_range]
  lengths := by
    intro l hl
    obtain ⟨i, hi, rfl⟩ := List.mem_map.1 hl
    have hcells : (line parray width L i).length = (row parray width i).length * (L + 1) :=
      length_flatten_cells fun a ha => hfits a (mem_row ha)
    rw [length_row (List.mem_range.1 hi) hlen] at hcells
    exact ⟨hcells, not_newline_of_mem_line⟩
  cells := by
    intro i j hi hj
    have hend := row_end hi hlen
    have hget : parray[i * width + j]? = some parray[i * width + j] := List.getElem?_eq_getElem (by omega)
    have hrow : (row parray width i)[j]? = some parray[i * width + j] := by
      rw [row, List.getElem?_take_of_lt hj, List.getElem?_drop, hget]
    refine ⟨_, line parray width L i, hget, ?_, drop_flatten_cells (fun a ha => hfits a (mem_row ha)) hrow⟩
    rw [List.getElem?_map, List.getElem?_range hi]
    rfl

theorem printMatrixInt_eq (hlen : parray.length = width * height)
    (hmax : maxElementLength parray (width * height) = some L) :
    printMatrixInt parray width height =
      some (((List.range height).flatMap fun i => line parray width L i ++ ['\n']) ++ ['\n']) := by
  have hlines : (List.range height).mapM (printLine parray width L) =
      some ((List.range height).map (line parray width L)) :=
    mapM_eq_some_map fun i hi => printLine_eq (List.mem_range.1 hi) hlen
  rw [printMatrixInt, hmax, Option.bind_eq_bind, Option.bind_some, hlines, Option.bind_eq_bind, Option.bind_some,
    List.flatMap_map]
  rfl

/-- **`print_matrix_int` prints a table.**  The lengths are those of the texts and the padding never wraps; the lines
make a `Table` for the longest text, and the words of the output are read back as the elements, row by row. -/
theorem print_matrix_int_spec (width height : Nat) (parray : List Int) (hlen : parray.length = width * height)
    (hint : ∀ a ∈ parray, -2 ^ 31 < a ∧ a < 2 ^ 31) :
    ∃ (L : Nat) (lines : List (List Char)) (out : List Char), maxElementLength parray (width * height) = some L ∧
      (∀ a ∈ parray, (decimal a).length ≤ L) ∧ (parray ≠ [] → ∃ a ∈ parray, (decimal a).length = L) ∧
      (∀ a ∈ parray, numberLength a = some (decimal a).length ∧
        padding L (decimal a).length = L - (decimal a).length + 1) ∧
      printMatrixInt parray width height = some out ∧ out = (lines.flatMap fun line => line ++ ['\n']) ++ ['\n'] ∧
      Table parray width height L lines ∧
      words out = parray.map decimal ∧ (words out).map readInt = parray := by
  obtain ⟨L, hmax, hone, hall, hsome⟩ :=
    maxElementLength_spec (fun a ha => (hint a ha).1) (width * height) (Nat.le_of_eq hlen.symm)
  rw [List.take_of_length_le (Nat.le_of_eq hlen)] at hall hsome
  have hlt : L < 2 ^ 32 := by
    rcases hsome with rfl | ⟨a, ha, rfl⟩
    · decide
    · exact Nat.lt_of_le_of_lt (length_decimal_le (hint a ha).1 (hint a ha).2) (by decide)
  have hfits : ∀ a ∈ parray, Fits L a := fun a ha => ⟨hall a ha, padding_eq (hall a ha) hlt⟩
  have hwords : words (((List.range height).flatMap fun i => line parray width L i ++ ['\n']) ++ ['\n']) =
      parray.map decimal := by
    rw [words_lines parray width ['\n'] fun i _ a ha => hfits a (mem_row ha), flatMap_row,
      List.take_of_length_le (by rw [hlen, Nat.mul_comm])]
    exact List.append_nil _
  have hread : (parray.map decimal).map readInt = parray := by
    rw [List.map_map]
    exact (List.map_congr_left fun a _ => readInt_decimal a).trans parray.map_id
  refine ⟨L, (List.range height).map (line parray width L), _, hmax, hall, fun hne => ?_, fun a ha =>
    ⟨numberLength_eq (hint a ha).1, (hfits a ha).padding⟩, printMatrixInt_eq hlen hmax, ?_, table_lines hlen hfits,
    hwords, hwords ▸ hread⟩
  · rcases hsome with rfl | hsome
    · obtain ⟨a, ha⟩ := List.exists_mem_of_ne_nil parray hne
      have hpos := List.length_pos_of_ne_nil (decimal_ne_nil a)
      exact ⟨a, ha, Nat.le_antisymm (hall a ha) hpos⟩
    · exact hsome
  · rw [List.flatMap_map]

theorem print_matrix_int_spec_rows :
    ∃ (L : Nat) (lines : List (List Char)) (out : List Char), maxElementLength [10, -101, 0, 780] (2 * 2) = some L ∧
      (∀ a ∈ [10, -101, 0, 780], (decimal a).length ≤ L) ∧
      ([10, -101, 0, 780] ≠ ([] : List Int) → ∃ a ∈ [10, -101, 0, 780], (decimal a).length = L) ∧
      (∀ a ∈ [10, -101, 0, 780], numberLength a = some (decimal a).length ∧
        padding L (decimal a).length = L - (decimal a).length + 1) ∧
      printMatrixInt [10, -101, 0, 780] 2 2 = some out ∧ out = (lines.flatMap fun line => line ++ ['\n']) ++ ['\n'] ∧
      Table [10, -101, 0, 780] 2 2 L lines ∧
      words out = [10, -101, 0, 780].map decimal ∧ (words out).map readInt = [10, -101, 0, 780] :=
  print_matrix_int_spec 2 2 [10, -101, 0, 780] rfl (by decide)

example : printMatrixInt [10, -101, 0, 780] 2 2 = some "10   -101 \n0    780  \n\n".toList := by decide +kernel

end PrintMatrix
end Eltex
