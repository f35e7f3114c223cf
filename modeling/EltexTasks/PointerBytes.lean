import Mathlib.Algebra.Order.Ring.Int
import Mathlib.Data.List.Basic
import Mathlib.Tactic.Ring
/-!
# PointerBytes — `memcpy` between arrays of pointers (a library)

Pointers are 8 bytes long, the lowest byte first.  `memcpyPointers` copies a number of bytes that need not be a whole
number of pointers: `mix` is the pointer of which only some low bytes were overwritten.
-/
namespace Eltex

/-- The `w` low bytes of `n`, the lowest first. -/
def leBytes : Nat → Nat → List Nat
  | 0, _ => []
  | w + 1, n => n % 256 :: leBytes w (n / 256)

def ofLeBytes : List Nat → Nat
  | [] => 0
  | b :: bs => b + 256 * ofLeBytes bs

def pointerSize : Nat := 8

def pointerArray (ps : List Nat) : List Nat := ps.flatMap (leBytes pointerSize)

/-- The first `count` pointers in the memory `bytes`. -/
def readPointers : Nat → List Nat → List Nat
  | 0, _ => []
  | count + 1, bytes => ofLeBytes (bytes.take pointerSize) :: readPointers count (bytes.drop pointerSize)

def memcpy (dst src : List Nat) (n : Nat) : List Nat := src.take n ++ dst.drop n

def memcpyPointers (dst src : List Nat) (n : Nat) : List Nat :=
  readPointers dst.length (memcpy (pointerArray dst) (pointerArray src) n)

/-- The pointer `d` after its `n` low bytes became those of `s`. -/
def mix (d s n : Nat) : Nat := ofLeBytes (memcpy (leBytes pointerSize d) (leBytes pointerSize s) n)

/-- The number of pointers of 8 bytes. -/
def pointerValues : Nat := 256 ^ pointerSize

theorem length_leBytes : ∀ (w n : Nat), (leBytes w n).length = w
  | 0, _ => rfl
  | w + 1, n => congrArg (· + 1) (length_leBytes w (n / 256))

theorem getElem?_leBytes : ∀ {w n j : Nat}, j < w → (leBytes w n)[j]? = some (n / 256 ^ j % 256)
  | w + 1, n, 0, _ => by simp [leBytes]
  | w + 1, n, j + 1, h => by
    rw [leBytes, List.getElem?_cons_succ, getElem?_leBytes (Nat.lt_of_succ_lt_succ h), Nat.div_div_eq_div_mul,
      Nat.pow_succ, Nat.mul_comm]

theorem ofLeBytes_leBytes : ∀ (w n : Nat), n < 256 ^ w → ofLeBytes (leBytes w n) = n
  | 0, n, h => by
    rw [Nat.pow_zero] at h
    exact (Nat.lt_one_iff.1 h).symm
  | w + 1, n, h => by
    rw [Nat.pow_succ] at h
    rw [leBytes, ofLeBytes, ofLeBytes_leBytes w (n / 256) (by omega)]
    omega

theorem lt_of_mem_leBytes : ∀ {w n b : Nat}, b ∈ leBytes w n → b < 256
  | w + 1, n, b, h => by
    rcases List.mem_cons.1 h with rfl | h
    · exact Nat.mod_lt _ (by decide)
    · exact lt_of_mem_leBytes h

theorem ofLeBytes_lt : ∀ {bs : List Nat}, (∀ b ∈ bs, b < 256) → ofLeBytes bs < 256 ^ bs.length
  | [], _ => Nat.one_pos
  | b :: bs, h => by
    have hb := h b List.mem_cons_self
    have ih := ofLeBytes_lt fun c hc => h c (List.mem_cons_of_mem b hc)
    rw [ofLeBytes, List.length_cons, Nat.pow_succ]
    omega

theorem ofLeBytes_append : ∀ (bs cs : List Nat), ofLeBytes (bs ++ cs) = ofLeBytes bs + 256 ^ bs.length * ofLeBytes cs
  | [], cs => by simp [ofLeBytes]
  | b :: bs, cs => by
    rw [List.cons_append, ofLeBytes, ofLeBytes, ofLeBytes_append bs cs, List.length_cons, Nat.pow_succ]
    ring

/-! ## One pointer -/

theorem mix_zero {d : Nat} (s : Nat) (hd : d < pointerValues) : mix d s 0 = d := ofLeBytes_leBytes _ _ hd

theorem mix_self {d : Nat} (n : Nat) (hd : d < pointerValues) : mix d d n = d := by
  rw [mix, memcpy, List.take_append_drop]
  exact ofLeBytes_leBytes _ _ hd

/-- One copied byte is the lowest one. -/
theorem mix_mod {n : Nat} (d s : Nat) (hn : 0 < n) : mix d s n % 256 = s % 256 := by
  obtain ⟨n, rfl⟩ : ∃ k, n = k + 1 := ⟨n - 1, by omega⟩
  simp only [mix, memcpy, pointerSize, leBytes, List.take_succ_cons, List.cons_append, ofLeBytes]
  omega

theorem mix_one_div {d : Nat} (s : Nat) (hd : d < pointerValues) : mix d s 1 / 256 = d / 256 := by
  have htail : ofLeBytes (leBytes 7 (d / 256)) = d / 256 := ofLeBytes_leBytes 7 _ (by
    unfold pointerValues pointerSize at hd
    omega)
  have hmix : mix d s 1 = s % 256 + 256 * ofLeBytes (leBytes 7 (d / 256)) := rfl
  rw [hmix, htail]
  omega

/-! ## Arrays -/

theorem length_readPointers : ∀ (count : Nat) (bytes : List Nat), (readPointers count bytes).length = count
  | 0, _ => rfl
  | count + 1, _ => congrArg (· + 1) (length_readPointers count _)

theorem lt_of_mem_readPointers : ∀ {count : Nat} {bytes : List Nat} {p : Nat}, (∀ b ∈ bytes, b < 256) →
    p ∈ readPointers count bytes → p < pointerValues
  | _ + 1, bytes, _, h, hp => by
    rcases List.mem_cons.1 hp with rfl | hp
    · have hlt : ofLeBytes (bytes.take pointerSize) < 256 ^ (bytes.take pointerSize).length :=
        ofLeBytes_lt fun b hb => h b (List.mem_of_mem_take hb)
      exact Nat.lt_of_lt_of_le hlt (Nat.pow_le_pow_right (by decide) (List.length_take_le _ _))
    · exact lt_of_mem_readPointers (fun b hb => h b (List.mem_of_mem_drop hb)) hp

theorem length_memcpyPointers (dst src : List Nat) (n : Nat) : (memcpyPointers dst src n).length = dst.length :=
  length_readPointers _ _

theorem lt_of_mem_memcpyPointers {dst src : List Nat} {n p : Nat} (hp : p ∈ memcpyPointers dst src n) :
    p < pointerValues := by
  have harray : ∀ {ps : List Nat} {b : Nat}, b ∈ pointerArray ps → b < 256 := by
    intro ps b hb
    obtain ⟨q, -, hb⟩ := List.mem_flatMap.1 hb
    exact lt_of_mem_leBytes hb
  apply lt_of_mem_readPointers _ hp
  intro b hb
  rcases List.mem_append.1 hb with hb | hb
  · exact harray (List.mem_of_mem_take hb)
  · exact harray (List.mem_of_mem_drop hb)

theorem readPointers_append {bytes rest : List Nat} (count : Nat) (h : bytes.length = pointerSize) :
    readPointers (count + 1) (bytes ++ rest) = ofLeBytes bytes :: readPointers count rest := by
  rw [readPointers, List.take_left' h, List.drop_left' h]

theorem readPointers_pointerArray : ∀ (ps : List Nat), (∀ p ∈ ps, p < pointerValues) →
    readPointers ps.length (pointerArray ps) = ps
  | [], _ => rfl
  | p :: ps, h => by
    have hp : (leBytes pointerSize p).length = pointerSize := length_leBytes _ _
    rw [List.length_cons, pointerArray, List.flatMap_cons, readPointers_append _ hp,
      ofLeBytes_leBytes _ _ (h p List.mem_cons_self), ← pointerArray,
      readPointers_pointerArray ps fun q hq => h q (List.mem_cons_of_mem p hq)]

theorem memcpyPointers_zero {ps : List Nat} (src : List Nat) (h : ∀ p ∈ ps, p < pointerValues) :
    memcpyPointers ps src 0 = ps := by
  rw [memcpyPointers, memcpy, List.take_zero, List.nil_append, List.drop_zero, readPointers_pointerArray ps h]

theorem memcpyPointers_cons (d s : Nat) (ds ss : List Nat) (n : Nat) :
    memcpyPointers (d :: ds) (s :: ss) n = mix d s n :: memcpyPointers ds ss (n - pointerSize) := by
  have hd : (leBytes pointerSize d).length = pointerSize := length_leBytes _ _
  have hs : (leBytes pointerSize s).length = pointerSize := length_leBytes _ _
  have hsplit : memcpy (pointerArray (d :: ds)) (pointerArray (s :: ss)) n =
      memcpy (leBytes pointerSize d) (leBytes pointerSize s) n ++
        memcpy (pointerArray ds) (pointerArray ss) (n - pointerSize) := by
    unfold memcpy pointerArray
    rw [List.flatMap_cons, List.flatMap_cons, List.take_append, List.drop_append, hd, hs]
    rcases Nat.le_total n pointerSize with hn | hn
    · rw [Nat.sub_eq_zero_of_le hn, List.take_zero, List.drop_zero, List.append_nil, List.nil_append, List.append_assoc]
    · rw [List.drop_eq_nil_of_le (by rw [hd]; exact hn), List.nil_append, List.append_nil, List.append_assoc]
  have hlen : (memcpy (leBytes pointerSize d) (leBytes pointerSize s) n).length = pointerSize := by
    unfold memcpy
    rw [List.length_append, List.length_take, List.length_drop, hd, hs]
    omega
  rw [memcpyPointers, hsplit, List.length_cons, readPointers_append _ hlen]
  rfl

/-- Copying bytes that are equal already changes nothing. -/
theorem memcpyPointers_append : ∀ (xs ds ss : List Nat) (n : Nat), (∀ p ∈ xs ++ ds, p < pointerValues) →
    n ≤ xs.length * pointerSize → memcpyPointers (xs ++ ds) (xs ++ ss) n = xs ++ ds
  | [], ds, ss, n, h, hn => by
    obtain rfl : n = 0 := by simpa using hn
    exact memcpyPointers_zero _ h
  | x :: xs, ds, ss, n, h, hn => by
    have hle : n - pointerSize ≤ xs.length * pointerSize := by
      rw [List.length_cons, Nat.add_mul] at hn
      omega
    rw [List.cons_append, List.cons_append, memcpyPointers_cons, mix_self n (h x List.mem_cons_self),
      memcpyPointers_append xs ds ss _ (fun p hp => h p (List.mem_cons_of_mem x hp)) hle]

end Eltex
