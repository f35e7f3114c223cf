import Mathlib.Algebra.Order.Ring.Int
import Mathlib.Data.List.TakeWhile
/-!
# CString — bytes, NUL-terminated strings and the library calls on them

A C string is the list of the bytes before its NUL.  Each call is named after the C function whose documented result
it computes.
-/
namespace Eltex

abbrev Byte := UInt8

/-- The bytes of a string, the terminating NUL left out. -/
abbrev CString := List Byte

def chr (c : Char) : Byte := c.toUInt8

def str (cs : List Char) : CString := cs.map chr

def newline : Byte := chr '\n'

/-- The string a pointer to the bytes `bs` denotes: they are read up to the first NUL. -/
def cstr (bs : List Byte) : CString := bs.takeWhile (· != 0)

/-- `strchr`, as the offset of the first `c`; `none` is NULL. -/
def strchr (s : CString) (c : Byte) : Option Nat := s.idxOf? c

/-- `strncmp(a, b, n) == 0` -/
def strncmpEq (a b : CString) (n : Nat) : Bool := a.take n == b.take n

/-- `isalnum` in the C locale. -/
def isalnum (b : Byte) : Bool :=
  (chr '0' ≤ b && b ≤ chr '9') || (chr 'A' ≤ b && b ≤ chr 'Z') || (chr 'a' ≤ b && b ≤ chr 'z')

/-- `fgets(buf, size, stdin)`: what it stores in `buf` and what it leaves unread; `none` at the end of the input. -/
def fgets (size : Nat) (stdin : List Byte) : Option (List Byte × List Byte) :=
  if stdin = [] then none
  else
    let n := match stdin.idxOf? newline with
      | some k => min (k + 1) (size - 1)
      | none => min stdin.length (size - 1)
    some (stdin.take n, stdin.drop n)

theorem lt_of_strchr {s : CString} {c : Byte} {n : Nat} (h : strchr s c = some n) : n < s.length :=
  (List.idxOf?_eq_some_iff.1 h).1

theorem strchr_append {w s : CString} {c : Byte} (h : c ∉ w) : strchr (w ++ c :: s) c = some w.length := by
  unfold strchr
  rw [List.idxOf?_eq_some_iff]
  refine ⟨by simp, by simp, fun j hj => ?_⟩
  rw [List.getElem_append_left hj]
  exact fun hc => h (hc ▸ List.getElem_mem hj)

theorem strchr_eq_none {s : CString} {c : Byte} (h : c ∉ s) : strchr s c = none :=
  List.idxOf?_eq_none_iff.2 h

/-- The string around its first `c`. -/
theorem split_of_strchr {s : CString} {c : Byte} {n : Nat} (h : strchr s c = some n) :
    s = s.take n ++ c :: s.drop (n + 1) ∧ c ∉ s.take n := by
  obtain ⟨hlt, hc, hbefore⟩ := List.idxOf?_eq_some_iff.1 h
  constructor
  · have hdrop := List.drop_eq_getElem_cons hlt
    rw [hc] at hdrop
    rw [← hdrop, List.take_append_drop]
  · intro hmem
    obtain ⟨j, hj, heq⟩ := List.mem_take_iff_getElem.1 hmem
    exact hbefore j (by omega) heq

theorem cstr_eq_self {s : CString} (h : 0 ∉ s) : cstr s = s := by
  rw [cstr, List.takeWhile_eq_self_iff]
  intro b hb
  exact bne_iff_ne.2 (fun h0 => h (h0 ▸ hb))

theorem cstr_append_nul {s : CString} (h : 0 ∉ s) (rest : List Byte) : cstr (s ++ 0 :: rest) = s := by
  have hs : ∀ b ∈ s, (b != 0) = true := fun b hb => bne_iff_ne.2 fun h0 => h (h0 ▸ hb)
  rw [cstr, List.takeWhile_append_of_pos hs, List.takeWhile_cons_of_neg (by simp), List.append_nil]

theorem fgets_line {size : Nat} {line rest : List Byte} (hnl : newline ∉ line) (hlen : line.length + 1 ≤ size - 1) :
    fgets size (line ++ newline :: rest) = some (line ++ [newline], rest) := by
  have hidx : (line ++ newline :: rest).idxOf? newline = some line.length := strchr_append hnl
  have hsplit : line ++ newline :: rest = (line ++ [newline]) ++ rest := by rw [List.append_assoc]; rfl
  have hn : min (line.length + 1) (size - 1) = (line ++ [newline]).length := by
    rw [Nat.min_eq_left hlen, List.length_append]; rfl
  unfold fgets
  rw [if_neg (by simp), hidx]
  simp only
  rw [hn, hsplit, List.take_left, List.drop_left]

theorem fgets_cut {size : Nat} {bytes : List Byte} (hnl : newline ∉ bytes) (hne : bytes ≠ [])
    (hlen : bytes.length = size - 1) (rest : List Byte) : fgets size (bytes ++ rest) = some (bytes, rest) := by
  have hn : (match (bytes ++ rest).idxOf? newline with
      | some k => min (k + 1) (size - 1)
      | none => min (bytes ++ rest).length (size - 1)) = bytes.length := by
    cases hidx : (bytes ++ rest).idxOf? newline with
    | none =>
      simp only [List.length_append]
      omega
    | some k =>
      obtain ⟨hlt, hk, -⟩ := List.idxOf?_eq_some_iff.1 hidx
      have hge : bytes.length ≤ k := by
        by_contra hlt
        rw [List.getElem_append_left (by omega)] at hk
        exact hnl (hk ▸ List.getElem_mem _)
      simp only
      omega
  unfold fgets
  rw [if_neg (by simp [hne]), hn]
  simp only [List.take_left, List.drop_left]

theorem fgets_eof {size : Nat} {bytes : List Byte} (hnl : newline ∉ bytes) (hne : bytes ≠ [])
    (hlen : bytes.length ≤ size - 1) : fgets size bytes = some (bytes, []) := by
  unfold fgets
  rw [if_neg hne, List.idxOf?_eq_none_iff.2 hnl]
  simp only
  rw [Nat.min_eq_left hlen, List.take_length, List.drop_length]

theorem append_of_fgets {size : Nat} {stdin bytes rest : List Byte} (hsize : 2 ≤ size)
    (h : fgets size stdin = some (bytes, rest)) : bytes ++ rest = stdin ∧ bytes ≠ [] := by
  unfold fgets at h
  split at h
  · cases h
  · rename_i hne
    have hpos := List.length_pos_iff.2 hne
    obtain ⟨rfl, rfl⟩ := Prod.mk.inj (Option.some.inj h)
    refine ⟨List.take_append_drop _ _, ?_⟩
    rw [← List.length_pos_iff, List.length_take]
    have hsize' : 0 < size - 1 := by omega
    split
    · exact lt_min (lt_min (Nat.succ_pos _) hsize') hpos
    · exact lt_min (lt_min hpos hsize') hpos

end Eltex
