import EltexTasks.CString
/-!
# FileReverse — a file and its reversal

file_manager/source/file_edit.c: `file_task_1`, from the file opened on, where each `read` returns as many bytes as the
file has to give.  The loop that reads backwards ends at the limit of `buf` with `i` still at the byte it stored last,
and the NUL then takes that byte's place (`fileTask1_eq`).
-/
namespace Eltex
namespace FileReverse

/-- A store of `bytes` from `buf + off` on; `none` past the end of `buf`. -/
def store (buf : List Byte) (off : Nat) (bytes : List Byte) : Option (List Byte) :=
  if off + bytes.length ≤ buf.length then some (buf.take off ++ bytes ++ buf.drop (off + bytes.length)) else none

/-- `read` of `n` bytes at the position `pos`. -/
def read (file : List Byte) (pos n : Nat) : List Byte := (file.drop pos).take n

/-- `lseek(fd, offset, SEEK_END)`; `none` before the file. -/
def lseekEnd (file : List Byte) (offset : Int) : Option Nat :=
  if file.length + offset < 0 then none else some (file.length + offset).toNat

/-- The rounds of the loop that are left at `i`. -/
def reverseLoop (file : List Byte) : Nat → Nat → List Byte → Option (Nat × List Byte)
  | 0, i, buf => some (i, buf)
  | rounds + 1, i, buf => do
    let curPos ← lseekEnd file (-(i : Int) - 1)
    let buf ← store buf i (read file curPos 1)
    if i + 1 = 256 then some (i, buf) else reverseLoop file rounds (i + 1) buf

/-- `buf` as the first `read` leaves it, with a NUL where there is room. -/
def readText (buf file : List Byte) : Option (List Byte) :=
  let bytes := read file 0 256
  (store buf 0 bytes).bind fun buf => if bytes.length < 256 then store buf bytes.length [0] else some buf

/-- `file_task_1`: the two texts it prints. -/
def fileTask1 (buf file : List Byte) : Option (CString × CString) := do
  let buf ← readText buf file
  let text := cstr (buf.take 256)
  let (i, buf) ← reverseLoop file file.length 0 buf
  let buf ← store buf i [0]
  return (text, cstr (buf.take 256))

variable {file buf bytes : List Byte} {off i : Nat}

theorem store_eq (h : off + bytes.length ≤ buf.length) : ∃ buf', store buf off bytes = some buf' ∧
    buf'.length = buf.length ∧ buf'.take off = buf.take off ∧ buf'.take (off + bytes.length) = buf.take off ++ bytes := by
  have hoff : (buf.take off).length = off := by
    rw [List.length_take]
    omega
  refine ⟨_, if_pos h, ?_, ?_, ?_⟩
  · rw [List.length_append, List.length_append, hoff, List.length_drop]
    omega
  · rw [List.append_assoc, List.take_left' hoff]
  · rw [List.take_left' (by rw [List.length_append, hoff])]

theorem lseekEnd_eq (hi : i < file.length) : lseekEnd file (-(i : Int) - 1) = some (file.length - 1 - i) := by
  rw [lseekEnd, if_neg (by omega)]
  congr 1
  omega

theorem read_backwards (hi : i < file.length) :
    (read file (file.length - 1 - i) 1).length = 1 ∧
      file.reverse.take (i + 1) = file.reverse.take i ++ read file (file.length - 1 - i) 1 := by
  have hget : (file.drop (file.length - 1 - i)).take 1 = [file[file.length - 1 - i]] := by
    rw [List.drop_eq_getElem_cons (by omega)]
    rfl
  rw [read, hget, List.take_add_one, List.getElem?_reverse hi, List.getElem?_eq_getElem (by omega)]
  exact ⟨rfl, rfl⟩

/-- **The loop reads the file from its end** into `buf`, and stops before or at the last byte of `buf`. -/
theorem reverseLoop_eq (file : List Byte) : ∀ (rounds i : Nat) (buf : List Byte), i + rounds = file.length → i < 256 →
    buf.length = 256 → buf.take i = file.reverse.take i →
    ∃ buf', reverseLoop file rounds i buf = some (min file.length 255, buf') ∧ buf'.length = 256 ∧
      buf'.take (min file.length 255) = file.reverse.take (min file.length 255)
  | 0, i, buf, hrounds, hi, hlen, htake => by
    obtain rfl : min file.length 255 = i := by omega
    exact ⟨buf, rfl, hlen, htake⟩
  | rounds + 1, i, buf, hrounds, hi, hlen, htake => by
    have hlt : i < file.length := by omega
    obtain ⟨hone, hread⟩ := read_backwards hlt
    have hfits : i + (read file (file.length - 1 - i) 1).length ≤ buf.length := by omega
    obtain ⟨buf', hstore, hlen', hkeep, htake'⟩ := store_eq hfits
    rw [hone, htake, ← hread] at htake'
    simp only [reverseLoop, lseekEnd_eq hlt, hstore, Option.bind_eq_bind, Option.bind_some]
    split
    next hlast =>
      obtain rfl : min file.length 255 = i := by omega
      exact ⟨buf', rfl, hlen'.trans hlen, hkeep.trans htake⟩
    next hnot =>
      exact reverseLoop_eq file rounds (i + 1) buf' (by omega) (by omega) (hlen'.trans hlen) htake'

/-- The text a `printf` of `%.256s` writes of a NUL-terminated string. -/
theorem cstr_terminated {s : CString} (h : 0 ∉ s) (hlen : s.length < 256) (rest : List Byte) :
    cstr ((s ++ 0 :: rest).take 256) = s := by
  obtain ⟨k, hk⟩ : ∃ k, 256 = s.length + (k + 1) := ⟨255 - s.length, by omega⟩
  rw [hk, List.take_length_add_append, List.take_succ_cons]
  exact cstr_append_nul h _

theorem store_nul (hi : i < 256) (hbuf : buf.length = 256) (hnul : 0 ∉ buf.take i) :
    ∃ buf', store buf i [0] = some buf' ∧ buf'.length = 256 ∧ cstr (buf'.take 256) = buf.take i := by
  have hlen : (buf.take i).length < 256 := by
    rw [List.length_take]
    omega
  have hfits : i + ([0] : List Byte).length ≤ buf.length := by
    rw [List.length_singleton]
    omega
  obtain ⟨buf', hstore, hlen', -, htake⟩ := store_eq hfits
  have hsplit : buf' = buf.take i ++ 0 :: buf'.drop (i + 1) := by
    conv_lhs => rw [← List.take_append_drop (i + 1) buf']
    rw [List.length_singleton] at htake
    rw [htake, List.append_assoc]
    rfl
  refine ⟨buf', hstore, hlen'.trans hbuf, ?_⟩
  rw [hsplit]
  exact cstr_terminated hnul hlen _

theorem readText_eq (hbuf : buf.length = 256) (hnul : 0 ∉ file) :
    ∃ buf', readText buf file = some buf' ∧ buf'.length = 256 ∧ cstr (buf'.take 256) = file.take 256 := by
  have hle : (file.take 256).length ≤ 256 := List.length_take_le 256 file
  have hnul' : 0 ∉ file.take 256 := fun h => hnul (List.mem_of_mem_take h)
  have hfits : 0 + (file.take 256).length ≤ buf.length := by omega
  obtain ⟨buf', hstore, hlen, -, htake⟩ := store_eq hfits
  rw [Nat.zero_add, List.take_zero, List.nil_append] at htake
  simp only [readText, read, List.drop_zero, hstore, Option.bind_some]
  by_cases hshort : (file.take 256).length < 256
  · obtain ⟨buf'', hstore', hlen', htext⟩ := store_nul hshort (hlen.trans hbuf) (by rwa [htake])
    rw [if_pos hshort]
    exact ⟨buf'', hstore', hlen', htext.trans htake⟩
  · have hfull : (file.take 256).length = 256 := by omega
    rw [if_neg hshort]
    rw [hfull] at htake
    refine ⟨buf', rfl, hlen.trans hbuf, ?_⟩
    rw [htake]
    exact cstr_eq_self hnul'

/-- **What `file_task_1` prints**: the first 256 bytes of the file, and its last 255 backwards. -/
theorem fileTask1_eq (hbuf : buf.length = 256) (hnul : 0 ∉ file) :
    fileTask1 buf file = some (file.take 256, file.reverse.take 255) := by
  obtain ⟨buf₁, hread, hlen, htext⟩ := readText_eq hbuf hnul
  obtain ⟨buf₂, hloop, hlen', htake⟩ :=
    reverseLoop_eq file file.length 0 buf₁ (Nat.zero_add _) (by decide) hlen (by rw [List.take_zero, List.take_zero])
  have hmin : file.reverse.take (min file.length 255) = file.reverse.take 255 := by
    rw [Nat.min_comm, ← List.length_reverse, ← List.take_eq_take_min]
  rw [hmin] at htake
  have hnul' : 0 ∉ buf₂.take (min file.length 255) := by
    rw [htake]
    exact fun h => hnul (List.mem_reverse.1 (List.mem_of_mem_take h))
  obtain ⟨buf₃, hstore', -, hreversed⟩ := store_nul (by omega) hlen' hnul'
  rw [htake] at hreversed
  simp only [fileTask1, hread, hloop, hstore', htext, hreversed, Option.bind_eq_bind, Option.bind_some]
  rfl

/-- The reversal of the last bytes is what the file begins with when read backwards. -/
theorem reverse_last (file : List Byte) (n : Nat) :
    (file.drop (file.length - min n file.length)).reverse = file.reverse.take n := by
  rw [List.take_reverse]
  congr 2
  omega

/-- **The second text is the reversal of the last 256 bytes, or of the whole file where it is shorter, just when the
file has at most 255 bytes.** -/
theorem file_task_1_iff (buf file : List Byte) (hbuf : buf.length = 256) (hnul : 0 ∉ file) :
    fileTask1 buf file = some (file.take 256, (file.drop (file.length - min 256 file.length)).reverse) ↔
      file.length ≤ 255 := by
  rw [fileTask1_eq hbuf hnul, reverse_last]
  constructor
  · intro h
    have hlen := congrArg List.length (Prod.mk.inj (Option.some.inj h)).2
    rw [List.length_take, List.length_take, List.length_reverse] at hlen
    omega
  · intro hle
    have hrev : file.reverse.length ≤ 255 := by rw [List.length_reverse]; exact hle
    rw [List.take_of_length_le hrev, List.take_of_length_le (Nat.le_succ_of_le hrev)]

theorem file_task_1_iff_three :
    fileTask1 (List.replicate 256 0) [1, 2, 3] =
        some (([1, 2, 3] : List Byte).take 256,
          (([1, 2, 3] : List Byte).drop (([1, 2, 3] : List Byte).length - min 256 ([1, 2, 3] : List Byte).length)).reverse) ↔
      ([1, 2, 3] : List Byte).length ≤ 255 :=
  file_task_1_iff (List.replicate 256 0) [1, 2, 3] List.length_replicate (by decide)

/-- The first byte of a file of 256 bytes is not printed again. -/
theorem first_byte_lost :
    ¬ ∀ buf file : List Byte, buf.length = 256 → 0 ∉ file →
      fileTask1 buf file = some (file.take 256, (file.drop (file.length - min 256 file.length)).reverse) := by
  intro h
  have hnul : 0 ∉ List.replicate 256 (chr 'a') := fun h0 => absurd (List.eq_of_mem_replicate h0) (by decide)
  have hfull := h (List.replicate 256 0) (List.replicate 256 (chr 'a')) List.length_replicate hnul
  rw [fileTask1_eq List.length_replicate hnul, reverse_last] at hfull
  have hlen := congrArg List.length (Prod.mk.inj (Option.some.inj hfull)).2
  rw [List.length_take, List.length_take, List.length_reverse, List.length_replicate] at hlen
  omega

end FileReverse
end Eltex
