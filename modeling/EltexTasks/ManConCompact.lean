import EltexTasks.PointerBytes
/-!
# ManConCompact — copying as many bytes as there are pointers

The sweep of `man_con_server` keeps a sublist of `occupied_threads` and copies it back with a byte count that should have
been eight times as large.  The pointers kept are in place afterwards only if they were there before
(`compact_perm_iff`), a lone one excepted that differs from the first pointer in its lowest byte alone.
-/
namespace Eltex
namespace ManCon

/-- A lone pointer `kept` that agrees with the first of `all` in all bytes but the lowest. -/
def LoneNeighbour (all kept : List Nat) : Prop :=
  kept.length = 1 ∧ all.head?.map (· / 256) = kept.head?.map (· / 256)

instance (all kept : List Nat) : Decidable (LoneNeighbour all kept) := inferInstanceAs (Decidable (_ ∧ _))

/-- A sublist is a prefix or leaves out an element that a kept one follows. -/
theorem sublist_cases {all kept : List Nat} (h : kept.Sublist all) : kept <+: all ∨
    ∃ common x rest w ws, all = common ++ x :: rest ∧ kept = common ++ w :: ws ∧ (w :: ws).Sublist rest := by
  induction h with
  | slnil => exact Or.inl List.nil_prefix
  | @cons ks as a h ih =>
    cases ks with
    | nil => exact Or.inl List.nil_prefix
    | cons w ws => exact Or.inr ⟨[], a, as, w, ws, rfl, rfl, h⟩
  | @cons_cons ks as a h ih =>
    rcases ih with hpre | ⟨common, x, rest, w, ws, rfl, rfl, hsub⟩
    · exact Or.inl (List.cons_prefix_cons.2 ⟨rfl, hpre⟩)
    · exact Or.inr ⟨a :: common, x, rest, w, ws, rfl, rfl, hsub⟩

/-- The lowest byte tells the pointers apart. -/
def LowBytesDiffer (ps : List Nat) : Prop := ∀ p ∈ ps, ∀ q ∈ ps, p % 256 = q % 256 → p = q

variable {all kept rest ws zeros : List Nat} {x y w : Nat}

theorem LowBytesDiffer.subset {ps qs : List Nat} (h : LowBytesDiffer ps) (hsub : qs ⊆ ps) : LowBytesDiffer qs :=
  fun p hp q hq => h p (hsub hp) q (hsub hq)

/-- A pointer with the lowest byte of the first kept one is that one, if it is a kept one at all. -/
theorem mix_eq_of_perm {n : Nat} (hn : 0 < n) (hlow : LowBytesDiffer (w :: ws)) {more : List Nat}
    (hperm : (mix x w n :: more).Perm (w :: ws)) : mix x w n = w ∧ more.Perm ws := by
  have heq : mix x w n = w :=
    hlow _ (hperm.mem_iff.1 List.mem_cons_self) w List.mem_cons_self (mix_mod x w hn)
  rw [heq] at hperm
  exact ⟨heq, hperm.cons_inv⟩

/-- One byte past a whole pointer doubles the pointer it belongs to. -/
theorem not_perm_of_doubled (hlow : LowBytesDiffer (w :: ws)) (hnd : (w :: ws).Nodup) (hne : ws ≠ []) :
    ¬ (mix x w 1 :: (w :: ws ++ rest).take ws.length).Perm (w :: ws) := by
  intro hperm
  obtain ⟨-, hmore⟩ := mix_eq_of_perm Nat.one_pos hlow hperm
  obtain ⟨v, vs, rfl⟩ := List.exists_cons_of_ne_nil hne
  have hmem : w ∈ (w :: (v :: vs) ++ rest).take (v :: vs).length := by
    rw [List.length_cons, List.cons_append, List.take_succ_cons]
    exact List.mem_cons_self
  exact (List.nodup_cons.1 hnd).1 (hmore.mem_iff.1 hmem)

theorem compact_common {common : List Nat} (hbound : ∀ p ∈ common ++ x :: rest, p < pointerValues)
    (hx : x ∉ common ++ w :: ws) (hfew : (common ++ w :: ws).length ≤ common.length * pointerSize) :
    ¬ ((memcpyPointers (common ++ x :: rest) (common ++ w :: ws ++ zeros) (common ++ w :: ws).length).take
      (common ++ w :: ws).length).Perm (common ++ w :: ws) := by
  intro hperm
  rw [List.append_assoc, memcpyPointers_append common _ _ _ hbound hfew] at hperm
  apply hx
  rw [← hperm.mem_iff, List.mem_take_iff_getElem]
  refine ⟨common.length, ?_, ?_⟩
  · simp only [List.length_append, List.length_cons]
    omega
  · simp

/-- The first pointer was dropped: the copy is right only where one pointer is kept. -/
theorem lone_of_perm {tail : List Nat} (hsub : (w :: ws).Sublist rest) (hnd : rest.Nodup)
    (hlow : LowBytesDiffer (w :: ws)) (hbound : ∀ p ∈ x :: (rest ++ tail), p < pointerValues) (hlen : rest.length ≤ 9)
    (hperm : ((memcpyPointers (x :: (rest ++ tail)) (w :: (ws ++ zeros)) (ws.length + 1)).take (ws.length + 1)).Perm
      (w :: ws)) : ws = [] ∧ x / 256 = w / 256 := by
  have hndk := hsub.nodup hnd
  have hle := hsub.length_le
  rw [memcpyPointers_cons, List.take_succ_cons] at hperm
  obtain ⟨heq, hmore⟩ := mix_eq_of_perm (Nat.succ_pos _) hlow hperm
  cases ws with
  | nil =>
    rw [← mix_one_div w (hbound x List.mem_cons_self)]
    exact ⟨rfl, congrArg (· / 256) heq⟩
  | cons v vs =>
    exfalso
    obtain ⟨y, rest, rfl⟩ := List.exists_cons_of_ne_nil (l := rest) (by rintro rfl; cases hsub)
    rw [List.cons_append, List.cons_append, memcpyPointers_cons, List.length_cons, List.take_succ_cons] at hmore
    simp only [List.length_cons] at hlen hle hmore
    have hy : y < pointerValues := hbound y (by simp)
    have hlow' : LowBytesDiffer (v :: vs) := hlow.subset (List.subset_cons_self w _)
    rcases Nat.lt_or_ge (vs.length + 1) pointerSize with hk | hk
    · -- eight bytes at most: the second place still has its old pointer
      rw [show vs.length + 1 + 1 - pointerSize = 0 by omega, mix_zero v hy] at hmore
      have hmem : y ∈ v :: vs := hmore.mem_iff.1 List.mem_cons_self
      rcases List.sublist_cons_iff.1 hsub with hsub | ⟨r, hr, hsub⟩
      · exact (List.nodup_cons.1 hnd).1 (hsub.subset (List.mem_cons_of_mem w hmem))
      · obtain ⟨rfl, rfl⟩ := List.cons.inj hr
        exact (List.nodup_cons.1 hndk).1 hmem
    · -- nine bytes, every other pointer kept
      have hk9 : vs.length + 1 = pointerSize := by
        unfold pointerSize at hk ⊢
        omega
      have hall := hsub.eq_of_length (by
        simp only [List.length_cons]
        unfold pointerSize at hk9
        omega)
      obtain ⟨rfl, rfl⟩ := List.cons.inj hall
      rw [show vs.length + 1 + 1 - pointerSize = 1 by omega] at hmore
      rw [show 1 - pointerSize = 0 by decide, memcpyPointers_zero _ fun p hp => hbound p (by
        rw [List.mem_cons, List.cons_append, List.mem_cons]
        exact Or.inr (Or.inr hp))] at hmore
      refine not_perm_of_doubled hlow' (List.nodup_cons.1 hndk).2 ?_ hmore
      rintro rfl
      cases hk9

theorem compact_of_initial {tail : List Nat} (hpre : kept <+: all) (hbound : ∀ p ∈ all ++ tail, p < pointerValues) :
    (memcpyPointers (all ++ tail) (kept ++ zeros) kept.length).take kept.length = kept := by
  obtain ⟨more, rfl⟩ := hpre
  rw [List.append_assoc] at hbound ⊢
  rw [memcpyPointers_append kept _ _ _ hbound (Nat.le_mul_of_pos_right _ (by decide)), List.take_left]

theorem compact_of_lone {tail : List Nat} (h : LoneNeighbour all kept) (hbound : ∀ p ∈ all ++ tail, p < pointerValues) :
    (memcpyPointers (all ++ tail) (kept ++ zeros) kept.length).take kept.length = kept := by
  obtain ⟨hone, hhead⟩ := h
  obtain ⟨lone, rfl⟩ := List.length_eq_one_iff.1 hone
  obtain ⟨first, as, rfl⟩ : ∃ first as, all = first :: as := by
    cases all with
    | nil => cases hhead
    | cons first as => exact ⟨first, as, rfl⟩
  have hdiv : first / 256 = lone / 256 := Option.some.inj hhead
  have hmod := mix_mod first lone Nat.one_pos
  have hhigh := mix_one_div lone (hbound first (by simp))
  have heq : mix first lone 1 = lone := by omega
  rw [List.cons_append, List.cons_append, List.length_singleton, memcpyPointers_cons, heq]
  rfl

/-- **The pointers kept are in place after the copy exactly when they were before it**, or when only one is kept and the
copied byte is all that tells it from the first pointer. -/
theorem compact_perm_iff (zeros : List Nat) {tail : List Nat} (hsub : kept.Sublist all) (hnd : all.Nodup)
    (hlow : LowBytesDiffer all)
    (hbound : ∀ p ∈ all ++ tail, p < pointerValues) (hlen : all.length ≤ 10) :
    ((memcpyPointers (all ++ tail) (kept ++ zeros) kept.length).take kept.length).Perm kept ↔
      kept <+: all ∨ LoneNeighbour all kept := by
  constructor
  · intro hperm
    rcases sublist_cases hsub with hpre | ⟨common, x, rest, w, ws, rfl, rfl, hdropped⟩
    · exact Or.inl hpre
    right
    obtain ⟨-, hndr, hdisj⟩ := List.nodup_append.1 hnd
    have hkept := hdropped.length_le
    have hlowk : LowBytesDiffer (w :: ws) :=
      hlow.subset fun p hp => List.mem_append_right _ (List.mem_cons_of_mem x (hdropped.subset hp))
    have hx : x ∉ common ++ w :: ws := by
      rw [List.mem_append, not_or]
      constructor
      · exact fun hc => hdisj x hc x List.mem_cons_self rfl
      · exact fun hw => (List.nodup_cons.1 hndr).1 (hdropped.subset hw)
    rw [List.append_assoc, List.cons_append] at hperm hbound
    have hcommon : ¬ (common ++ w :: ws).length ≤ common.length * pointerSize := fun hfew =>
      compact_common hbound hx hfew hperm
    simp only [List.length_append, List.length_cons] at hlen hkept hcommon
    unfold pointerSize at hcommon
    rcases common with _ | ⟨c, _ | ⟨d, common⟩⟩
    · simp only [List.length_nil] at hlen
      obtain ⟨rfl, hdiv⟩ := lone_of_perm hdropped (List.nodup_cons.1 hndr).2 hlowk hbound (by omega) hperm
      exact ⟨rfl, congrArg some hdiv⟩
    · -- nine bytes, the second one of ten pointers dropped
      exfalso
      simp only [List.length_cons, List.length_nil] at hlen hcommon
      have hall := hdropped.eq_of_length (by rw [List.length_cons]; omega)
      subst hall
      have hws : ws.length = 7 := by
        simp only [List.length_cons] at hlen
        omega
      have hcopy : memcpyPointers (c :: x :: (w :: ws ++ tail)) (c :: w :: (ws ++ zeros)) (ws.length + 2) =
          c :: mix x w 1 :: (w :: ws ++ tail) := by
        rw [memcpyPointers_cons, memcpyPointers_cons, mix_self _ (hbound c (by simp)), hws]
        rw [show 7 + 2 - pointerSize = 1 by decide, show 1 - pointerSize = 0 by decide,
          memcpyPointers_zero _ fun p hp => hbound p (List.mem_append_right _ (List.mem_cons_of_mem x hp))]
      change ((memcpyPointers (c :: x :: (w :: ws ++ tail)) (c :: w :: (ws ++ zeros)) (ws.length + 2)).take
        (ws.length + 2)).Perm (c :: w :: ws) at hperm
      rw [hcopy, List.take_succ_cons, List.take_succ_cons] at hperm
      refine not_perm_of_doubled hlowk (List.nodup_cons.1 hndr).2 ?_ hperm.cons_inv
      rintro rfl
      cases hws
    · simp only [List.length_cons] at hlen hcommon
      omega
  · rintro (hpre | hlone)
    · rw [compact_of_initial hpre hbound]
    · rw [compact_of_lone hlone hbound]

end ManCon
end Eltex
