import Mathlib.Data.List.Induction
import EltexTasks.PointerBytes
/-!
# ByteEdit — the bytes of an unsigned int

modifying_bytes/source/modifying_bits.c: `edit_byte_shift`, `get_byte_shift`, `get_byte_pointer`.  The mask of an edit
is shifted with zeros, so an edit also clears the bytes below the one it writes (`getByteShift_editByteShift`).
-/
namespace Eltex
namespace ByteEdit

/-- `edit_byte_shift` -/
def editByteShift (value : BitVec 32) (newByteValue : BitVec 8) (byteNumber : Nat) : BitVec 32 :=
  let byteEraser := 0xFFFFFF00#32 <<< (byteNumber * 8)
  (value &&& byteEraser) ||| (newByteValue.setWidth 32 <<< (byteNumber * 8))

/-- `get_byte_shift` -/
def getByteShift (value : BitVec 32) (byteNumber : Nat) : BitVec 8 :=
  ((value >>> (byteNumber * 8)) &&& 0x000000FF#32).setWidth 8

/-- `get_byte_pointer`; the bytes of an `unsigned int` are stored from the lowest on. -/
def getBytePointer (value : BitVec 32) (byteNumber : Nat) : Option (BitVec 8) :=
  ((leBytes 4 value.toNat)[byteNumber]?).map (BitVec.ofNat 8)

/-- A call of `edit_byte_shift` at one of the four bytes. -/
structure Edit where
  newByteValue : BitVec 8
  byteNumber : Nat
  lt : byteNumber < 4
deriving DecidableEq, Repr

/-- The calls one after another. -/
def editBytes (value : BitVec 32) (edits : List Edit) : BitVec 32 :=
  edits.foldl (fun value e => editByteShift value e.newByteValue e.byteNumber) value

/-- The byte of the last edit at index `j`, or the byte of `value` where there is none. -/
def stored (value : BitVec 32) (edits : List Edit) (j : Nat) : BitVec 8 :=
  ((edits.reverse.find? fun e => e.byteNumber = j).map Edit.newByteValue).getD (getByteShift value j)

/-- The edits made after the last one at index `j`, all of them where there is none. -/
def editsSince (edits : List Edit) (j : Nat) : List Edit := edits.reverse.takeWhile fun e => e.byteNumber ≠ j

/-! ## One edit -/

variable {value : BitVec 32} {i j k : Nat}

theorem getLsbD_byteEraser : ∀ m < 32, (0xFFFFFF00#32).getLsbD m = decide (8 ≤ m) := by
  decide

theorem getLsbD_getByteShift (value : BitVec 32) (j : Nat) (hi : i < 8) :
    (getByteShift value j).getLsbD i = value.getLsbD (j * 8 + i) := by
  have hmask : ∀ i < 8, (0x000000FF#32).getLsbD i = true := by decide
  rw [getByteShift, BitVec.getLsbD_setWidth, BitVec.getLsbD_and, BitVec.getLsbD_ushiftRight, hmask i hi]
  simp [hi]

/-- **The two ways to get a byte agree**; the one through the pointer finds none past the last. -/
theorem getBytePointer_eq (value : BitVec 32) (j : Nat) :
    getBytePointer value j = if j < 4 then some (getByteShift value j) else none := by
  unfold getBytePointer
  split
  · rename_i hj
    rw [getElem?_leBytes hj, Option.map_some]
    congr 1
    apply BitVec.eq_of_toNat_eq
    have hmask : ∀ n : Nat, n &&& 255 = n % 256 := fun n => Nat.and_two_pow_sub_one_eq_mod n 8
    have hpow : 2 ^ (j * 8) = 256 ^ j := by rw [Nat.mul_comm, Nat.pow_mul]
    simp [getByteShift, hmask, Nat.shiftRight_eq_div_pow, hpow]
  · rename_i hj
    rw [List.getElem?_eq_none (by rw [length_leBytes]; omega)]
    rfl

/-- **What an edit does to each byte**: it writes its own, clears those below and leaves those above. -/
theorem getByteShift_editByteShift (value : BitVec 32) (b : BitVec 8) (hk : k < 4) (hj : j < 4) :
    getByteShift (editByteShift value b k) j =
      if j = k then b else if j < k then 0#8 else getByteShift value j := by
  apply BitVec.eq_of_getLsbD_eq
  intro i hi
  have hbit : j * 8 + i < 32 := by omega
  rw [getLsbD_getByteShift _ _ hi, editByteShift, BitVec.getLsbD_or, BitVec.getLsbD_and, BitVec.getLsbD_shiftLeft,
    BitVec.getLsbD_shiftLeft, BitVec.getLsbD_setWidth, getLsbD_byteEraser _ (by omega)]
  rcases Nat.lt_trichotomy j k with hlt | rfl | hgt
  · have hbelow : j * 8 + i < k * 8 := by omega
    rw [if_neg (Nat.ne_of_lt hlt), if_pos hlt]
    simp [hbelow]
  · have hin : j * 8 + i - j * 8 = i := by omega
    have hnot : ¬ j * 8 + i < j * 8 := by omega
    have herased : ¬ 8 ≤ i := by omega
    rw [if_pos rfl, hin]
    simp [hbit, hi, hnot, herased, show i < 32 by omega]
  · have habove : ¬ j * 8 + i < k * 8 := by omega
    have hpast : 8 ≤ j * 8 + i - k * 8 := by omega
    rw [if_neg (Nat.ne_of_gt hgt), if_neg (Nat.not_lt_of_gt hgt), getLsbD_getByteShift _ _ hi,
      BitVec.getLsbD_of_ge b _ hpast]
    simp [hbit, habove, hpast]

/-! ## Any sequence of edits -/

section Concat

variable (value : BitVec 32) (edits : List Edit) (e : Edit) (j : Nat)

theorem editBytes_concat :
    editBytes value (edits ++ [e]) = editByteShift (editBytes value edits) e.newByteValue e.byteNumber := by
  rw [editBytes, List.foldl_append]
  rfl

theorem stored_concat :
    stored value (edits ++ [e]) j = if e.byteNumber = j then e.newByteValue else stored value edits j := by
  unfold stored
  rw [List.reverse_concat, List.find?_cons]
  split <;> simp_all

theorem editsSince_concat :
    editsSince (edits ++ [e]) j = if e.byteNumber = j then [] else e :: editsSince edits j := by
  unfold editsSince
  rw [List.reverse_concat, List.takeWhile_cons]
  split <;> simp_all

end Concat

/-- **Byte `j` is what was last stored there** unless that is not zero and an edit at a higher index came after it. -/
theorem getByteShift_editBytes_iff (value : BitVec 32) (hj : j < 4) (edits : List Edit) :
    getByteShift (editBytes value edits) j = stored value edits j ↔
      stored value edits j = 0#8 ∨ ∀ e ∈ editsSince edits j, e.byteNumber < j := by
  induction edits using List.reverseRecOn with
  | nil =>
    have hsince : ∀ e ∈ editsSince [] j, e.byteNumber < j := fun e he => by cases he
    exact ⟨fun _ => .inr hsince, fun _ => rfl⟩
  | append_singleton edits e ih =>
    rw [editBytes_concat, getByteShift_editByteShift _ _ e.lt hj, stored_concat, editsSince_concat]
    rcases Nat.lt_trichotomy j e.byteNumber with hlt | heq | hgt
    · rw [if_neg (Nat.ne_of_lt hlt), if_pos hlt, if_neg (Nat.ne_of_gt hlt), if_neg (Nat.ne_of_gt hlt)]
      refine ⟨fun h => .inl h.symm, ?_⟩
      rintro (h | h)
      · exact h.symm
      · exact absurd (h e List.mem_cons_self) (Nat.lt_asymm hlt)
    · simp [heq]
    · rw [if_neg (Nat.ne_of_gt hgt), if_neg (Nat.not_lt_of_gt hgt), if_neg (Nat.ne_of_lt hgt),
        if_neg (Nat.ne_of_lt hgt), ih, List.forall_mem_cons]
      simp [hgt]

/-- An edit at index 1 of the value of `test_byte_edit` clears its byte 0. -/
theorem edit_clears_lower_byte :
    ¬ ∀ (value : BitVec 32) (edits : List Edit), ∀ j < 4,
      getByteShift (editBytes value edits) j = stored value edits j := by
  intro h
  have hzero := h 0xABCDEF12#32 [⟨0x56#8, 1, by decide⟩] 0 (by decide)
  exact absurd hzero (by decide)

/-- **The edits behave like writes to a store of four bytes** just when each byte last stored that is not zero has only
seen edits at lower indices since. -/
theorem edits_store_iff (value : BitVec 32) (edits : List Edit) :
    (∀ j < 4, getByteShift (editBytes value edits) j = stored value edits j) ↔
      ∀ j < 4, stored value edits j = 0#8 ∨ ∀ e ∈ editsSince edits j, e.byteNumber < j :=
  forall_congr' fun _ => forall_congr' fun hj => getByteShift_editBytes_iff value hj edits

end ByteEdit
end Eltex
