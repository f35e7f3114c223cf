import EltexTasks.Run
import EltexTasks.Update
/-!
# Threads — many threads count on one variable

threads_task/source/threads.c: `thread_start` and `threads_task_1`.  A thread reads the shared variable once, counts on
a copy and writes the copy back; the read and the write are one step each, and the variable is a number without bound.
Every round of counting of every thread is in the final value exactly when no thread reads between the read and the
write of another (`final_iff_serial`); what else can come out are the multiples of the rounds, from a single thread's up
(`finals`).
-/
namespace Eltex
namespace Threads

open Run (run Steps)

/-- A thread before its read of `*p_a`, between it and its write with what it has counted to, and after `pthread_exit`
with its return value. -/
inductive Thread where
  | created
  | counted (a : Nat)
  | exited (retval : Nat)
deriving DecidableEq, Repr

/-- `threads_task_1` and its threads; `printed` is what it prints, the return value of each thread it has joined and
the value of `a` at that time. -/
structure State where
  a : Nat
  threads : List Thread
  printed : List (Nat × Nat)
deriving DecidableEq, Repr

def start : State := { a := 0, threads := [], printed := [] }

/-- The loop of `thread_start`, on its own copy. -/
def countUp : Nat → Nat → Nat
  | 0, a => a
  | i + 1, a => countUp i (a + 1)

/-- A thread is created; thread `i` reads `a` and counts; thread `i` writes and exits; the next thread is joined and its
line printed. -/
inductive Event where
  | create
  | read (i : Nat)
  | write (i : Nat)
  | join
deriving DecidableEq, Repr

/-- `thread_amount` is 10000 in the code, and `rounds` 100000. -/
def step (threadAmount rounds : Nat) (s : State) : Event → Option State
  | .create =>
    if s.threads.length < threadAmount then some { s with threads := s.threads ++ [.created] } else none
  | .read i =>
    match s.threads[i]? with
    | some .created => some { s with threads := s.threads.set i (.counted (countUp rounds s.a)) }
    | _ => none
  | .write i =>
    match s.threads[i]? with
    | some (.counted a) => some { s with a := a, threads := s.threads.set i (.exited a) }
    | _ => none
  | .join =>
    if s.threads.length = threadAmount then
      match s.threads[s.printed.length]? with
      | some (.exited retval) => some { s with printed := s.printed ++ [(retval, s.a)] }
      | _ => none
    else none

/-- All threads have been joined. -/
def Joined (threadAmount : Nat) (s : State) : Prop := s.printed.length = threadAmount

def isCounting : Thread → Bool
  | .counted _ => true
  | _ => false

/-- A thread reads while none is between its read and its write. -/
def serial (s : State) : Event → Prop
  | .read _ => ∀ t ∈ s.threads, isCounting t = false
  | _ => True

instance (s : State) : ∀ e : Event, Decidable (serial s e)
  | .create => isTrue trivial
  | .read _ => inferInstanceAs (Decidable (∀ t ∈ s.threads, isCounting t = false))
  | .write _ => isTrue trivial
  | .join => isTrue trivial

def isExited : Thread → Bool
  | .exited _ => true
  | _ => false

/-- The number of threads that have exited. -/
def exits (s : State) : Nat := s.threads.countP isExited

variable {threadAmount rounds : Nat} {s t : State} {i : Nat}

theorem countUp_eq : ∀ (n a : Nat), countUp n a = a + n
  | 0, _ => rfl
  | n + 1, a => by
    rw [countUp, countUp_eq n]
    omega

/-! ## What a step does -/

theorem read_cases (h : step threadAmount rounds s (.read i) = some t) : s.threads[i]? = some .created ∧
    t = { s with threads := s.threads.set i (.counted (s.a + rounds)) } := by
  simp only [step, countUp_eq] at h
  split at h
  · rename_i hi
    exact ⟨hi, (Option.some.inj h).symm⟩
  · cases h

theorem write_cases (h : step threadAmount rounds s (.write i) = some t) : ∃ a, s.threads[i]? = some (.counted a) ∧
    t = { s with a := a, threads := s.threads.set i (.exited a) } := by
  simp only [step] at h
  split at h
  · rename_i a hi
    exact ⟨a, hi, (Option.some.inj h).symm⟩
  · cases h

theorem create_cases (h : step threadAmount rounds s .create = some t) : s.threads.length < threadAmount ∧
    t = { s with threads := s.threads ++ [.created] } := by
  simp only [step] at h
  split at h
  · rename_i hlt
    exact ⟨hlt, (Option.some.inj h).symm⟩
  · cases h

theorem join_cases (h : step threadAmount rounds s .join = some t) : s.threads.length = threadAmount ∧
    ∃ retval, s.threads[s.printed.length]? = some (.exited retval) ∧
      t = { s with printed := s.printed ++ [(retval, s.a)] } := by
  simp only [step] at h
  split at h
  · rename_i hlen
    split at h
    · rename_i retval hi
      exact ⟨hlen, retval, hi, (Option.some.inj h).symm⟩
    · cases h
  · cases h

theorem countP_set_exited {ts : List Thread} {u v : Thread} (hi : ts[i]? = some u) (hu : isExited u = false) :
    (ts.set i v).countP isExited = ts.countP isExited + if isExited v then 1 else 0 := by
  obtain ⟨hlt, hget⟩ := List.getElem?_eq_some_iff.1 hi
  rw [List.countP_set hlt, hget, hu]
  rfl

/-- Thread `i` is between its read and its write, and is going to write `a`. -/
def Counts (s : State) (i a : Nat) : Prop := s.threads[i]? = some (.counted a)

/-- **What a step does** to the variable, to the number of exits and to the threads that are counting: nothing; a read
begins to count on the value of the variable; a write ends it. -/
theorem step_cases {e : Event} (h : step threadAmount rounds s e = some t) :
    (serial s e ∧ t.a = s.a ∧ exits t = exits s ∧ ∀ j b, Counts t j b ↔ Counts s j b) ∨
    (∃ i, e = .read i ∧ (∀ b, ¬ Counts s i b) ∧ t.a = s.a ∧ exits t = exits s ∧
      ∀ j b, Counts t j b ↔ Counts s j b ∨ (j = i ∧ b = s.a + rounds)) ∨
    ∃ i a, e = .write i ∧ Counts s i a ∧ t.a = a ∧ exits t = exits s + 1 ∧
      ∀ j b, Counts t j b ↔ j ≠ i ∧ Counts s j b := by
  cases e with
  | create =>
    obtain ⟨-, rfl⟩ := create_cases h
    refine .inl ⟨trivial, rfl, ?_, fun j b => ⟨fun hj => ?_, fun hj => getElem?_concat_of_some hj⟩⟩
    · rw [exits, exits, List.countP_append]
      rfl
    · rcases getElem?_concat_cases hj with hold | ⟨-, hnew⟩
      · exact hold
      · cases hnew
  | join =>
    obtain ⟨-, retval, -, rfl⟩ := join_cases h
    exact .inl ⟨trivial, rfl, rfl, fun _ _ => Iff.rfl⟩
  | read i =>
    obtain ⟨hi, rfl⟩ := read_cases h
    have hlt := (List.getElem?_eq_some_iff.1 hi).1
    have hnot : ∀ b, ¬ Counts s i b := fun b hb => by cases hi.symm.trans hb
    refine .inr (.inl ⟨i, rfl, hnot, rfl, ?_, fun j b => ⟨fun hj => ?_, ?_⟩⟩)
    · rw [exits, exits, countP_set_exited hi rfl]
      rfl
    · rcases getElem?_set_cases hj with ⟨hji, hv⟩ | ⟨-, hold⟩
      · exact .inr ⟨hji, Thread.counted.inj hv⟩
      · exact .inl hold
    · rintro (hj | ⟨rfl, rfl⟩)
      · have hne : i ≠ j := fun he => hnot b (he ▸ hj)
        rw [Counts, List.getElem?_set_ne hne]
        exact hj
      · exact List.getElem?_set_self hlt
  | write i =>
    obtain ⟨a, hi, rfl⟩ := write_cases h
    refine .inr (.inr ⟨i, a, rfl, hi, rfl, ?_, fun j b => ⟨fun hj => ?_, fun ⟨hne, hj⟩ => ?_⟩⟩)
    · rw [exits, exits, countP_set_exited hi rfl]
      rfl
    · rcases getElem?_set_cases hj with ⟨-, hv⟩ | hold
      · cases hv
      · exact hold
    · rw [Counts, List.getElem?_set_ne (Ne.symm hne)]
      exact hj

/-! ## What is lost -/

/-- No round of counting has been lost: one thread at most is counting, on the value the variable still has. -/
structure Exact (rounds : Nat) (s : State) : Prop where
  value : s.a = rounds * exits s
  one : ∀ i j a b, Counts s i a → Counts s j b → i = j
  counting : ∀ i a, Counts s i a → a = rounds * (exits s + 1)

/-- Some thread's counting is lost, or is going to be: two are counting at once; or one is going to write a value that
is already due to the others; or the variable is behind. -/
inductive Behind (rounds : Nat) (s : State) : Prop where
  | two (i j a b : Nat) (hne : i ≠ j) (hi : Counts s i a) (hj : Counts s j b)
  | stale (i a : Nat) (hi : Counts s i a) (ha : a ≤ rounds * exits s)
  | lost (ha : s.a + rounds ≤ rounds * exits s) (hcounting : ∀ i a, Counts s i a → a ≤ rounds * exits s)

/-- Nothing is counted twice. -/
structure Bounded (rounds : Nat) (s : State) : Prop where
  value : s.a ≤ rounds * exits s
  counting : ∀ i a, Counts s i a → a ≤ rounds * (exits s + 1)

theorem Exact.bounded (h : Exact rounds s) : Bounded rounds s :=
  ⟨Nat.le_of_eq h.value, fun i a hi => Nat.le_of_eq (h.counting i a hi)⟩

theorem Bounded.step {e : Event} (h : Bounded rounds s) (hs : step threadAmount rounds s e = some t) :
    Bounded rounds t := by
  have hvalue := h.value
  rcases step_cases hs with ⟨-, ha, hexits, hcounts⟩ | ⟨i, -, -, ha, hexits, hcounts⟩ |
    ⟨i, a, -, hi, ha, hexits, hcounts⟩
  · exact ⟨by rw [ha, hexits]; exact hvalue, fun j b hj => by rw [hexits]; exact h.counting j b ((hcounts j b).1 hj)⟩
  · refine ⟨by rw [ha, hexits]; exact hvalue, fun j b hj => ?_⟩
    rw [hexits, Nat.mul_succ]
    rcases (hcounts j b).1 hj with hold | ⟨-, rfl⟩
    · have := h.counting j b hold
      rwa [Nat.mul_succ] at this
    · exact Nat.add_le_add_right hvalue rounds
  · refine ⟨by rw [ha, hexits]; exact h.counting i a hi, fun j b hj => ?_⟩
    have := h.counting j b ((hcounts j b).1 hj).2
    rw [hexits, Nat.mul_succ]
    exact Nat.le_add_right_of_le this

/-- **A thread that counts alone** loses nothing. -/
theorem Exact.step {e : Event} (h : Exact rounds s) (hok : serial s e) (hs : step threadAmount rounds s e = some t) :
    Exact rounds t := by
  have hvalue := h.value
  rcases step_cases hs with ⟨-, ha, hexits, hcounts⟩ | ⟨i, rfl, -, ha, hexits, hcounts⟩ |
    ⟨i, a, -, hi, ha, hexits, hcounts⟩
  · refine ⟨by rw [ha, hexits]; exact hvalue, fun j k b c hj hk => ?_, fun j b hj => ?_⟩
    · exact h.one j k b c ((hcounts j b).1 hj) ((hcounts k c).1 hk)
    · rw [hexits]
      exact h.counting j b ((hcounts j b).1 hj)
  · have halone : ∀ j b, Counts t j b → j = i ∧ b = s.a + rounds := fun j b hj =>
      ((hcounts j b).1 hj).resolve_left fun hold =>
      absurd (hok _ (List.mem_of_getElem? hold)) Bool.noConfusion
    refine ⟨by rw [ha, hexits]; exact hvalue, fun j k b c hj hk => ?_, fun j b hj => ?_⟩
    · exact (halone j b hj).1.trans (halone k c hk).1.symm
    · rw [(halone j b hj).2, hexits, Nat.mul_succ, hvalue]
  · have hnone : ∀ j b, ¬ Counts t j b := fun j b hj =>
      ((hcounts j b).1 hj).1 (h.one j i b a ((hcounts j b).1 hj).2 hi)
    refine ⟨?_, fun j k b c hj => absurd hj (hnone j b), fun j b hj => absurd hj (hnone j b)⟩
    rw [ha, hexits]
    exact h.counting i a hi

/-- A read between the read and the write of another thread. -/
theorem behind_of_read {e : Event} (hok : ¬ serial s e) (hs : step threadAmount rounds s e = some t) :
    Behind rounds t := by
  rcases step_cases hs with ⟨hserial, -⟩ | ⟨i, rfl, hnot, ha, hexits, hcounts⟩ | ⟨i, a, rfl, -⟩
  · exact absurd hserial hok
  · simp only [serial, not_forall] at hok
    obtain ⟨u, hu, hcounting⟩ := hok
    obtain ⟨j, hj⟩ := List.mem_iff_getElem?.1 hu
    obtain ⟨b, rfl⟩ : ∃ b, u = .counted b := by
      cases u with
      | created => exact absurd rfl hcounting
      | counted b => exact ⟨b, rfl⟩
      | exited retval => exact absurd rfl hcounting
    have hne : i ≠ j := fun he => hnot b (he ▸ hj)
    exact .two i j _ b hne ((hcounts i _).2 (.inr ⟨rfl, rfl⟩)) ((hcounts j b).2 (.inl hj))
  · exact absurd trivial hok

/-- **What is lost stays lost.** -/
theorem Behind.step {e : Event} (h : Behind rounds s) (hb : Bounded rounds s)
    (hs : step threadAmount rounds s e = some t) : Behind rounds t := by
  rcases step_cases hs with ⟨-, ha, hexits, hcounts⟩ | ⟨i, rfl, hnot, ha, hexits, hcounts⟩ |
    ⟨k, c, -, hk, ha, hexits, hcounts⟩
  · cases h with
    | two i j a b hne hi hj => exact .two i j a b hne ((hcounts i a).2 hi) ((hcounts j b).2 hj)
    | stale i a hi hle => exact .stale i a ((hcounts i a).2 hi) (by rw [hexits]; exact hle)
    | lost hle hcounting =>
      exact .lost (by rw [ha, hexits]; exact hle) fun j b hj => by rw [hexits]; exact hcounting j b ((hcounts j b).1 hj)
  · cases h with
    | two i j a b hne hi hj => exact .two i j a b hne ((hcounts i a).2 (.inl hi)) ((hcounts j b).2 (.inl hj))
    | stale i a hi hle => exact .stale i a ((hcounts i a).2 (.inl hi)) (by rw [hexits]; exact hle)
    | lost hle hcounting =>
      refine .lost (by rw [ha, hexits]; exact hle) fun j b hj => ?_
      rw [hexits]
      rcases (hcounts j b).1 hj with hold | ⟨-, rfl⟩
      · exact hcounting j b hold
      · exact hle
  · -- the thread `k` writes `c`: one more exit, and all that was counting is one thread further behind
    have hlater : ∀ j b, Counts t j b → b ≤ rounds * exits t := fun j b hj => by
      rw [hexits]
      exact hb.counting j b ((hcounts j b).1 hj).2
    cases h with
    | two i j a b hne hi hj =>
      by_cases hik : i = k
      · have hjk : j ≠ k := fun he => hne (hik.trans he.symm)
        exact .stale j b ((hcounts j b).2 ⟨hjk, hj⟩) (hlater j b ((hcounts j b).2 ⟨hjk, hj⟩))
      · exact .stale i a ((hcounts i a).2 ⟨hik, hi⟩) (hlater i a ((hcounts i a).2 ⟨hik, hi⟩))
    | stale i a hi hle =>
      by_cases hik : i = k
      · subst hik
        obtain rfl : a = c := Thread.counted.inj (Option.some.inj (hi.symm.trans hk))
        refine .lost ?_ hlater
        rw [ha, hexits, Nat.mul_succ]
        exact Nat.add_le_add_right hle rounds
      · exact .stale i a ((hcounts i a).2 ⟨hik, hi⟩) (hlater i a ((hcounts i a).2 ⟨hik, hi⟩))
    | lost hle hcounting =>
      refine .lost ?_ hlater
      rw [ha, hexits, Nat.mul_succ]
      exact Nat.add_le_add_right (hcounting k c hk) rounds

/-! ## The end of a run -/

/-- What `threads_task_1` has joined has exited. -/
structure JoinInv (threadAmount : Nat) (s : State) : Prop where
  length : s.threads.length ≤ threadAmount
  exited : ∀ i < s.printed.length, ∃ retval, s.threads[i]? = some (.exited retval)
  shown : 0 < s.printed.length → s.printed.length = threadAmount → s.printed.getLast?.map Prod.snd = some s.a

theorem JoinInv.step {e : Event} (h : JoinInv threadAmount s) (hs : step threadAmount rounds s e = some t) :
    JoinInv threadAmount t := by
  -- a thread that has exited takes no further step
  have hset : ∀ {i : Nat} {u v : Thread}, s.threads[i]? = some u → isExited u = false →
      (∀ j < s.printed.length, ∃ retval, (s.threads.set i v)[j]? = some (.exited retval)) ∧
        s.printed.length ≠ threadAmount := by
    intro i u v hi hu
    have hlate : ¬ i < s.printed.length := by
      intro hlt
      obtain ⟨retval, hr⟩ := h.exited i hlt
      rw [Option.some.inj (hi.symm.trans hr)] at hu
      cases hu
    refine ⟨fun j hj => ?_, fun heq => ?_⟩
    · rw [List.getElem?_set_ne (by omega)]
      exact h.exited j hj
    · have := (List.getElem?_eq_some_iff.1 hi).1
      have := h.length
      omega
  cases e with
  | create =>
    obtain ⟨hlt, rfl⟩ := create_cases hs
    refine ⟨?_, fun i hi => ?_, h.shown⟩
    · rw [List.length_append, List.length_singleton]
      exact hlt
    · obtain ⟨retval, hr⟩ := h.exited i hi
      exact ⟨retval, getElem?_concat_of_some hr⟩
  | read i =>
    obtain ⟨hi, rfl⟩ := read_cases hs
    obtain ⟨hexited, hne⟩ := hset hi rfl
    exact ⟨by rw [List.length_set]; exact h.length, hexited, fun _ heq => absurd heq hne⟩
  | write i =>
    obtain ⟨a, hi, rfl⟩ := write_cases hs
    obtain ⟨hexited, hne⟩ := hset hi rfl
    exact ⟨by rw [List.length_set]; exact h.length, hexited, fun _ heq => absurd heq hne⟩
  | join =>
    obtain ⟨-, retval, hr, rfl⟩ := join_cases hs
    refine ⟨h.length, fun i hi => ?_, fun _ _ => by rw [List.getLast?_concat]; rfl⟩
    rw [List.length_append, List.length_singleton] at hi
    rcases Nat.lt_or_eq_of_le (Nat.le_of_lt_succ hi) with hlt | rfl
    · exact h.exited i hlt
    · exact ⟨retval, hr⟩

theorem joinInv_start (threadAmount : Nat) : JoinInv threadAmount start := ⟨Nat.zero_le _, nofun, nofun⟩

/-- When all threads have been joined, all have exited. -/
theorem JoinInv.joined (h : JoinInv threadAmount s) (hjoined : Joined threadAmount s) :
    exits s = threadAmount ∧ ∀ i a, ¬ Counts s i a := by
  have hlen : s.threads.length = threadAmount := by
    refine Nat.le_antisymm h.length ?_
    by_contra hlt
    have hlast : s.threads.length < s.printed.length := by rw [hjoined]; omega
    obtain ⟨retval, hr⟩ := h.exited _ hlast
    have := (List.getElem?_eq_some_iff.1 hr).1
    omega
  have hall : ∀ u ∈ s.threads, isExited u = true := by
    intro u hu
    obtain ⟨i, hi⟩ := List.mem_iff_getElem?.1 hu
    obtain ⟨retval, hr⟩ := h.exited i (by
      rw [hjoined, ← hlen]
      exact (List.getElem?_eq_some_iff.1 hi).1)
    rw [Option.some.inj (hi.symm.trans hr)]
    rfl
  refine ⟨?_, fun i a hi => ?_⟩
  · rw [exits, List.countP_eq_length.2 hall, hlen]
  · have hexited := hall _ (List.mem_of_getElem? hi)
    cases hexited

/-- A run has lost something, or it has not. -/
structure Inv (rounds : Nat) (s : State) : Prop where
  bounded : Bounded rounds s
  split : Exact rounds s ∨ Behind rounds s

theorem not_exact_of_behind (hrounds : 0 < rounds) (h : Behind rounds s) : ¬ Exact rounds s := by
  intro he
  cases h with
  | two i j a b hne hi hj => exact hne (he.one i j a b hi hj)
  | stale i a hi hle =>
    rw [he.counting i a hi, Nat.mul_succ] at hle
    omega
  | lost hle _ =>
    rw [he.value] at hle
    omega

theorem Inv.step {e : Event} (h : Inv rounds s) (hs : step threadAmount rounds s e = some t) : Inv rounds t := by
  refine ⟨h.bounded.step hs, ?_⟩
  rcases h.split with hexact | hbehind
  · by_cases hok : serial s e
    · exact .inl (hexact.step hok hs)
    · exact .inr (behind_of_read hok hs)
  · exact .inr (hbehind.step h.bounded hs)

theorem not_counts_start (i a : Nat) : ¬ Counts start i a := by
  intro hi
  cases hi

theorem exact_start (rounds : Nat) : Exact rounds start :=
  ⟨rfl, fun i _ a _ hi => absurd hi (not_counts_start i a), fun i a hi => absurd hi (not_counts_start i a)⟩

theorem inv_start (rounds : Nat) : Inv rounds start := ⟨(exact_start rounds).bounded, .inl (exact_start rounds)⟩

/-- **Nothing is lost exactly when the threads count one after another**: the value the last line shows is the sum of
all threads' rounds if and only if no thread reads between another's read and its write. -/
theorem final_iff_serial (threadAmount rounds : Nat) (hthreads : 0 < threadAmount) (hrounds : 0 < rounds)
    (es : List Event) (s : State) (hrun : run (step threadAmount rounds) start es = some s)
    (hjoined : Joined threadAmount s) :
    s.printed.getLast?.map Prod.snd = some (rounds * threadAmount) ↔
      Steps (step threadAmount rounds) serial start es := by
  have hjoin : JoinInv threadAmount s := Run.run_inv (fun _ _ _ h hs => JoinInv.step h hs) (joinInv_start _) hrun
  have hinv : Inv rounds s := Run.run_inv (fun _ _ _ h hs => Inv.step h hs) (inv_start rounds) hrun
  obtain ⟨hexits, hnone⟩ := hjoin.joined hjoined
  have hexact : Exact rounds s ↔ s.a = rounds * threadAmount := by
    refine ⟨fun h => by rw [h.value, hexits], fun ha => hinv.split.resolve_right fun hbehind => ?_⟩
    cases hbehind with
    | two i j a b _ hi _ => exact hnone i a hi
    | stale i a hi _ => exact hnone i a hi
    | lost hle _ =>
      rw [ha, hexits] at hle
      omega
  rw [hjoin.shown (by rw [hjoined]; exact hthreads) hjoined, Option.some.injEq, ← hexact]
  have hinvStep : ∀ s e t, Inv rounds s → step threadAmount rounds s e = some t → Inv rounds t :=
    fun _ _ _ h hs => h.step hs
  have hexactStep : ∀ s e t, Inv rounds s → step threadAmount rounds s e = some t →
      (Exact rounds t ↔ Exact rounds s ∧ serial s e) := by
    intro s e t h hs
    refine ⟨fun ht => ?_, fun ⟨hexact, hok⟩ => hexact.step hok hs⟩
    have hs' : Exact rounds s := h.split.resolve_right fun hb =>
      not_exact_of_behind hrounds (hb.step h.bounded hs) ht
    exact ⟨hs', Classical.byContradiction fun hok => not_exact_of_behind hrounds (behind_of_read hok hs) ht⟩
  rw [Run.good_iff_steps hinvStep hexactStep es start s (inv_start rounds) hrun]
  exact ⟨And.right, fun h => ⟨exact_start rounds, h⟩⟩

/-- Two threads of three rounds, the second one reads before the first one writes. -/
def overlapping : List Event := [.create, .create, .read 0, .read 1, .write 0, .write 1, .join, .join]

theorem rounds_lost : ((run (step 2 3) start overlapping).get rfl).printed.getLast?.map Prod.snd ≠ some (3 * 2) :=
  fun h => absurd ((final_iff_serial 2 3 (by decide) (by decide) overlapping _ (Option.some_get rfl).symm rfl).1 h)
    (by decide)

/-! ## All that can come out -/

/-- The variable is a multiple of the rounds, and so is what any thread is going to write. -/
structure Multiple (rounds : Nat) (s : State) : Prop where
  value : ∃ k, s.a = rounds * k ∧ (0 < exits s → 0 < k)
  counting : ∀ i a, Counts s i a → ∃ k, 0 < k ∧ a = rounds * k

theorem Multiple.step {e : Event} (h : Multiple rounds s) (hs : step threadAmount rounds s e = some t) :
    Multiple rounds t := by
  obtain ⟨k, hk, hpos⟩ := h.value
  rcases step_cases hs with ⟨-, ha, hexits, hcounts⟩ | ⟨i, -, -, ha, hexits, hcounts⟩ |
    ⟨i, a, -, hi, ha, hexits, hcounts⟩
  · exact ⟨⟨k, by rw [ha, hk], by rw [hexits]; exact hpos⟩, fun j b hj => h.counting j b ((hcounts j b).1 hj)⟩
  · refine ⟨⟨k, by rw [ha, hk], by rw [hexits]; exact hpos⟩, fun j b hj => ?_⟩
    rcases (hcounts j b).1 hj with hold | ⟨-, rfl⟩
    · exact h.counting j b hold
    · exact ⟨k + 1, Nat.succ_pos k, by rw [hk, Nat.mul_succ]⟩
  · obtain ⟨k', hk', rfl⟩ := h.counting i a hi
    exact ⟨⟨k', ha, fun _ => hk'⟩, fun j b hj => h.counting j b ((hcounts j b).1 hj).2⟩

section Schedule

/-! ### The runs that give them -/

variable (threadAmount rounds : Nat)

theorem run_create (a : Nat) (p : List (Nat × Nat)) : ∀ (m : Nat) (ts : List Thread), ts.length + m ≤ threadAmount →
    run (step threadAmount rounds) ⟨a, ts, p⟩ (List.replicate m .create) = some ⟨a, ts ++ List.replicate m .created, p⟩
  | 0, ts, _ => by rw [List.replicate_zero, List.replicate_zero, List.append_nil]; rfl
  | m + 1, ts, h => by
    have hstep : step threadAmount rounds ⟨a, ts, p⟩ .create = some ⟨a, ts ++ [.created], p⟩ :=
      if_pos (show ts.length < threadAmount by omega)
    rw [List.replicate_succ, Run.run_cons, hstep, Option.bind_some, run_create a p m (ts ++ [Thread.created]) (by
      rw [List.length_append, List.length_singleton]; omega), List.replicate_succ, List.append_assoc]
    rfl

theorem step_read (a : Nat) (p : List (Nat × Nat)) (xs ys : List Thread) :
    step threadAmount rounds ⟨a, xs ++ .created :: ys, p⟩ (.read xs.length) =
      some ⟨a, xs ++ .counted (a + rounds) :: ys, p⟩ := by
  have hi : (xs ++ Thread.created :: ys)[xs.length]? = some .created := by
    rw [List.getElem?_append_right (Nat.le_refl _), Nat.sub_self]; rfl
  simp only [step, hi, countUp_eq]
  rw [List.set_append_right _ _ (Nat.le_refl _), Nat.sub_self]
  rfl

theorem step_write (a b : Nat) (p : List (Nat × Nat)) (xs ys : List Thread) :
    step threadAmount rounds ⟨a, xs ++ .counted b :: ys, p⟩ (.write xs.length) =
      some ⟨b, xs ++ .exited b :: ys, p⟩ := by
  have hi : (xs ++ Thread.counted b :: ys)[xs.length]? = some (.counted b) := by
    rw [List.getElem?_append_right (Nat.le_refl _), Nat.sub_self]; rfl
  simp only [step, hi]
  rw [List.set_append_right _ _ (Nat.le_refl _), Nat.sub_self]
  rfl

/-- `m` threads read one after another, from thread `i` on. -/
def readAll (i m : Nat) : List Event := (List.range' i m).map .read

def writeAll (i m : Nat) : List Event := (List.range' i m).map .write

/-- `m` threads count one after another, from thread `i` on. -/
def countAll (i m : Nat) : List Event := (List.range' i m).flatMap fun j => [.read j, .write j]

theorem run_readAll (a : Nat) (p : List (Nat × Nat)) (ys : List Thread) : ∀ (m : Nat) (xs : List Thread),
    run (step threadAmount rounds) ⟨a, xs ++ (List.replicate m .created ++ ys), p⟩ (readAll xs.length m) =
      some ⟨a, xs ++ (List.replicate m (.counted (a + rounds)) ++ ys), p⟩
  | 0, xs => rfl
  | m + 1, xs => by
    have ih := run_readAll a p ys m (xs ++ [.counted (a + rounds)])
    rw [List.length_append, List.length_singleton, List.append_assoc, List.append_assoc] at ih
    rw [readAll, List.range'_succ, List.map_cons, Run.run_cons, List.replicate_succ, List.cons_append, step_read,
      Option.bind_some]
    exact ih

theorem run_writeAll (b : Nat) (p : List (Nat × Nat)) (ys : List Thread) : ∀ (m a : Nat) (xs : List Thread),
    run (step threadAmount rounds) ⟨a, xs ++ (List.replicate m (.counted b) ++ ys), p⟩ (writeAll xs.length m) =
      some ⟨if m = 0 then a else b, xs ++ (List.replicate m (.exited b) ++ ys), p⟩
  | 0, a, xs => rfl
  | m + 1, a, xs => by
    have ih := run_writeAll b p ys m b (xs ++ [.exited b])
    rw [List.length_append, List.length_singleton, List.append_assoc, List.append_assoc, ite_self] at ih
    rw [writeAll, List.range'_succ, List.map_cons, Run.run_cons, List.replicate_succ, List.cons_append, step_write,
      Option.bind_some, if_neg (Nat.succ_ne_zero m)]
    exact ih

theorem run_countAll (p : List (Nat × Nat)) : ∀ (m a : Nat) (xs : List Thread), (∀ u ∈ xs, isExited u = true) →
    ∃ ts, ts.length = xs.length + m ∧ (∀ u ∈ ts, isExited u = true) ∧
      run (step threadAmount rounds) ⟨a, xs ++ List.replicate m .created, p⟩ (countAll xs.length m) =
        some ⟨a + rounds * m, ts, p⟩
  | 0, a, xs, hxs => ⟨xs, rfl, hxs, by rw [List.replicate_zero, List.append_nil]; rfl⟩
  | m + 1, a, xs, hxs => by
    have hxs' : ∀ u ∈ xs ++ [.exited (a + rounds)], isExited u = true := by
      intro u hu
      rcases List.mem_append.1 hu with hu | hu
      · exact hxs u hu
      · rw [List.mem_singleton.1 hu]; rfl
    obtain ⟨ts, hlen, hts, hrun⟩ := run_countAll p m (a + rounds) (xs ++ [.exited (a + rounds)]) hxs'
    rw [List.length_append, List.length_singleton] at hlen hrun
    refine ⟨ts, by omega, hts, ?_⟩
    rw [countAll, List.range'_succ, List.flatMap_cons, List.replicate_succ]
    show run _ _ (.read xs.length :: .write xs.length :: countAll (xs.length + 1) m) = _
    rw [Run.run_cons, step_read, Option.bind_some, Run.run_cons, step_write, Option.bind_some]
    rw [List.append_assoc] at hrun
    rw [Nat.mul_succ, ← Nat.add_assoc, Nat.add_right_comm]
    exact hrun

theorem run_joins (a : Nat) {ts : List Thread} (hlen : ts.length = threadAmount) (hts : ∀ u ∈ ts, isExited u = true) :
    ∀ (m : Nat) (p : List (Nat × Nat)), p.length + m = threadAmount →
      ∃ q, q.length = threadAmount ∧
        run (step threadAmount rounds) ⟨a, ts, p⟩ (List.replicate m .join) = some ⟨a, ts, q⟩
  | 0, p, h => ⟨p, h, rfl⟩
  | m + 1, p, h => by
    have hlt : p.length < ts.length := by omega
    obtain ⟨retval, hr⟩ : ∃ retval, ts[p.length]? = some (.exited retval) := by
      have hmem := hts _ (List.getElem_mem hlt)
      rw [List.getElem?_eq_getElem hlt]
      cases hu : ts[p.length] with
      | exited retval => exact ⟨retval, rfl⟩
      | created => rw [hu] at hmem; cases hmem
      | counted b => rw [hu] at hmem; cases hmem
    have hstep : step threadAmount rounds ⟨a, ts, p⟩ .join = some ⟨a, ts, p ++ [(retval, a)]⟩ := by
      simp only [step, hr]
      exact if_pos hlen
    obtain ⟨q, hq, hrun⟩ := run_joins a hlen hts m (p ++ [(retval, a)]) (by
      rw [List.length_append, List.length_singleton]; omega)
    exact ⟨q, hq, by rw [List.replicate_succ, Run.run_cons, hstep]; exact hrun⟩

end Schedule

/-- **What can come out**: the value the last line shows is a multiple of the rounds of one thread, and each multiple
from 1 to the number of threads is the outcome of some run. -/
theorem finals (threadAmount rounds : Nat) (hthreads : 0 < threadAmount) (hrounds : 0 < rounds) (v : Nat) :
    (∃ es s, run (step threadAmount rounds) start es = some s ∧ Joined threadAmount s ∧
        s.printed.getLast?.map Prod.snd = some v) ↔
      ∃ k, 1 ≤ k ∧ k ≤ threadAmount ∧ v = rounds * k := by
  have hshown : ∀ es s, run (step threadAmount rounds) start es = some s → Joined threadAmount s →
      exits s = threadAmount ∧ s.printed.getLast?.map Prod.snd = some s.a := fun es s hrun hjoined => by
    have hjoin : JoinInv threadAmount s := Run.run_inv (fun _ _ _ h hs => JoinInv.step h hs) (joinInv_start _) hrun
    exact ⟨(hjoin.joined hjoined).1, hjoin.shown (by rw [hjoined]; exact hthreads) hjoined⟩
  constructor
  · rintro ⟨es, s, hrun, hjoined, hv⟩
    obtain ⟨hexits, hlast⟩ := hshown es s hrun hjoined
    rw [hlast, Option.some.injEq] at hv
    have hinv : Inv rounds s := Run.run_inv (fun _ _ _ h hs => Inv.step h hs) (inv_start rounds) hrun
    have hstart : Multiple rounds start :=
      ⟨⟨0, rfl, fun h => absurd h (Nat.lt_irrefl 0)⟩, fun i a hi => absurd hi (not_counts_start i a)⟩
    have hmultiple : Multiple rounds s := Run.run_inv (fun _ _ _ h hs => Multiple.step h hs) hstart hrun
    obtain ⟨k, hk, hpos⟩ := hmultiple.value
    have hle := hinv.bounded.value
    rw [hk, hexits] at hle
    exact ⟨k, hpos (by rw [hexits]; exact hthreads), Nat.le_of_mul_le_mul_left hle hrounds, hv.symm.trans hk⟩
  · rintro ⟨k, hk1, hkn, rfl⟩
    -- `threadAmount - k + 1` threads read before the first of them writes, the others count one after another
    obtain ⟨m, rfl⟩ : ∃ m, threadAmount = m + k := ⟨threadAmount - k, by omega⟩
    obtain ⟨k, rfl⟩ : ∃ k', k = k' + 1 := ⟨k - 1, by omega⟩
    have hcreate := run_create (m + (k + 1)) rounds 0 [] (m + (k + 1)) [] (by simp)
    have hsplit : List.replicate (m + (k + 1)) Thread.created =
        List.replicate (m + 1) .created ++ List.replicate k .created := by
      rw [← List.replicate_add]
      congr 1
      omega
    rw [List.nil_append, hsplit] at hcreate
    have hread := run_readAll (m + (k + 1)) rounds 0 [] (List.replicate k .created) (m + 1) []
    have hwrite := run_writeAll (m + (k + 1)) rounds rounds [] (List.replicate k .created) (m + 1) 0 []
    rw [if_neg (Nat.succ_ne_zero m)] at hwrite
    obtain ⟨ts, hlen, hts, hcount⟩ := run_countAll (m + (k + 1)) rounds [] k rounds
      (List.replicate (m + 1) (.exited rounds)) (fun u hu => by rw [List.eq_of_mem_replicate hu]; rfl)
    rw [List.length_replicate] at hlen hcount
    obtain ⟨q, hq, hjoin⟩ := run_joins (m + (k + 1)) rounds (rounds + rounds * k) (by omega) hts (m + (k + 1)) []
      (Nat.zero_add _)
    rw [List.nil_append, List.nil_append, Nat.zero_add] at hread
    rw [List.nil_append, List.nil_append] at hwrite
    have hrun : run (step (m + (k + 1)) rounds) start (List.replicate (m + (k + 1)) .create ++ (readAll 0 (m + 1) ++
        (writeAll 0 (m + 1) ++ (countAll (m + 1) k ++ List.replicate (m + (k + 1)) .join)))) =
          some ⟨rounds + rounds * k, ts, q⟩ := by
      rw [Run.run_append, start, hcreate, Option.bind_some, Run.run_append]
      rw [show readAll 0 (m + 1) = readAll ([] : List Thread).length (m + 1) from rfl, hread, Option.bind_some,
        Run.run_append]
      rw [show writeAll 0 (m + 1) = writeAll ([] : List Thread).length (m + 1) from rfl, hwrite, Option.bind_some,
        Run.run_append, hcount, Option.bind_some, hjoin]
    refine ⟨_, _, hrun, hq, ?_⟩
    rw [(hshown _ _ hrun hq).2, Nat.mul_succ, Nat.add_comm]

/-- The threads of the program can all come to what one of them counts. -/
theorem one_of_all_counts : ∃ es s, run (step 10000 100000) start es = some s ∧ Joined 10000 s ∧
    s.printed.getLast?.map Prod.snd = some 100000 :=
  (finals 10000 100000 (by decide) (by decide) 100000).2 ⟨1, by decide, by decide, by decide⟩

end Threads
end Eltex
