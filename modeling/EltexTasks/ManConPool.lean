import Mathlib.Data.List.Nodup
import EltexTasks.ManConServer
import EltexTasks.ManConCompact
/-!
# ManConPool — the workers are free or occupied

Every worker is listed once, in `free_threads` or in `occupied_threads` (`PoolInv`), as long as each sweep copies back
what it found (`copiesBack`).  The end of a sweep that does not loses a worker or lists one twice
(`not_partition_of_copy`).
-/
namespace Eltex
namespace ManCon

def free (s : Server) : List Nat := s.freeThreads.take s.freeThreadsCount

def occupied (s : Server) : List Nat := s.occupiedThreads.take s.occupiedThreadsCount

/-- The pointers whose flags are set. -/
def flagged : List Nat → List Bool → List Nat
  | p :: ps, b :: bs => if b then p :: flagged ps bs else flagged ps bs
  | _, _ => []

/-- The occupied workers the sweep has found working. -/
def stillWorking (s : Server) : List Nat := flagged (occupied s) s.found

/-- The worker at `p` has finished. -/
def Idle (base : Nat) (s : Server) (p : Nat) : Prop :=
  ∃ i info, i < threadCount ∧ p = workerAddr base i ∧ s.threads[i]? = some info ∧ info.threadWorkingFlag = false

/-- The order `k` was answered, or its worker still has it. -/
def OrderKept (s : Server) (k : Nat) (order : Int × SockaddrIn) : Prop :=
  (k, answer order.1, order.2) ∈ s.replies ∨ ⟨order.1, order.2, true, k⟩ ∈ s.threads

/-- The pool at a head of the request loop. -/
structure PoolOk (base : Nat) (s : Server) : Prop where
  partition : s.pc = .head → (free s ++ occupied s).Perm (workers base)
  idle : s.pc = .head → 0 < s.freeThreadsCount →
    ∃ p, s.freeThreads[s.freeThreadsCount - 1]? = some p ∧ Idle base s p
  kept : ∀ k order, s.accepted[k]? = some order → OrderKept s k order

/-- A sweep ends well when the workers it found working are the first ones of `occupied_threads`, or when there is one
alone, at an address that differs from the first one's in the lowest byte at most. -/
def endsWell (s : Server) : Pc → Prop
  | .sweep i _ => i < s.occupiedThreadsCount ∨ stillWorking s <+: occupied s ∨ LoneNeighbour (occupied s) (stillWorking s)
  | _ => True

/-- Every step but the end of a sweep, and that when the sweep ends well. -/
def copiesBack (s : Server) : Event → Prop
  | .server => endsWell s s.pc
  | _ => True

instance (s : Server) : ∀ pc, Decidable (endsWell s pc)
  | .sweep _ _ => inferInstanceAs (Decidable (_ ∨ _ ∨ _))
  | .head => inferInstanceAs (Decidable True)
  | .stopped => inferInstanceAs (Decidable True)

instance (s : Server) : ∀ e, Decidable (copiesBack s e)
  | .server => inferInstanceAs (Decidable (endsWell s s.pc))
  | .recv .. => inferInstanceAs (Decidable True)
  | .finish _ => inferInstanceAs (Decidable True)

/-! ## The addresses of the workers -/

theorem mem_workers {base p : Nat} : p ∈ workers base ↔ ∃ i < threadCount, p = workerAddr base i := by
  simp only [workers, List.mem_map, List.mem_range, eq_comm]

theorem lowBytes_workers (base : Nat) : LowBytesDiffer (workers base) := by
  intro p hp q hq hmod
  obtain ⟨i, hi, rfl⟩ := mem_workers.1 hp
  obtain ⟨j, hj, rfl⟩ := mem_workers.1 hq
  unfold workerAddr threadInfoSize threadCount at *
  omega

theorem lt_of_mem_workers {base p : Nat} (hbase : base + threadInfoSize * threadCount ≤ pointerValues)
    (hp : p ∈ workers base) : p < pointerValues := by
  obtain ⟨i, hi, rfl⟩ := mem_workers.1 hp
  unfold workerAddr threadInfoSize threadCount at *
  omega

theorem workerAddr_injective {base i j : Nat} (h : workerAddr base i = workerAddr base j) : i = j := by
  unfold workerAddr threadInfoSize at h
  omega

theorem nodup_workers (base : Nat) : (workers base).Nodup :=
  List.Nodup.map (fun _ _ h => workerAddr_injective h) List.nodup_range

theorem length_workers (base : Nat) : (workers base).length = threadCount := by
  rw [workers, List.length_map, List.length_range]

theorem workerAt_eq_some {base p i : Nat} : workerAt base p = some i ↔ i < threadCount ∧ p = workerAddr base i := by
  unfold workerAt
  rw [List.find?_range_eq_some]
  simp only [beq_iff_eq, List.mem_range, Bool.not_eq_eq_eq_not, Bool.not_true, beq_eq_false_iff_ne]
  constructor
  · rintro ⟨hp, hi, -⟩
    exact ⟨hi, hp.symm⟩
  · rintro ⟨hi, rfl⟩
    exact ⟨rfl, hi, fun j hj h => absurd (workerAddr_injective h) (Nat.ne_of_lt hj)⟩

/-! ## The invariant -/

/-- Round `i` of a sweep. -/
structure SweepInv (base : Nat) (s : Server) (i newOccupiedThreadsCount : Nat) : Prop where
  pool : (free s ++ (stillWorking s ++ (occupied s).drop i)).Perm (workers base)
  nodup : (occupied s).Nodup
  subset : occupied s ⊆ workers base
  round : i ≤ s.occupiedThreadsCount
  found : s.found.length = i
  count : (stillWorking s).length = newOccupiedThreadsCount
  temp : s.temp.take newOccupiedThreadsCount = stillWorking s

def Pool (base : Nat) (s : Server) : Prop :=
  match s.pc with
  | .head => (free s ++ occupied s).Perm (workers base)
  | .sweep i newOccupiedThreadsCount => SweepInv base s i newOccupiedThreadsCount
  | .stopped => True

structure PoolInv (base : Nat) (s : Server) : Prop where
  threads : s.threads.length = threadCount
  freeThreads : s.freeThreads.length = threadCount
  occupiedThreads : s.occupiedThreads.length = threadCount
  bound : ∀ p ∈ s.occupiedThreads, p < pointerValues
  freeCount : s.freeThreadsCount ≤ threadCount
  occupiedCount : s.occupiedThreadsCount ≤ threadCount
  pool : Pool base s
  idle : ∀ p ∈ free s, Idle base s p
  kept : ∀ k order, s.accepted[k]? = some order → OrderKept s k order

variable {base : Nat} {s t : Server}

theorem PoolInv.length_occupied (h : PoolInv base s) : (occupied s).length = s.occupiedThreadsCount := by
  rw [occupied, List.length_take, h.occupiedThreads, Nat.min_eq_left h.occupiedCount]

theorem PoolInv.ok (h : PoolInv base s) : PoolOk base s where
  partition hpc := by
    have hpool := h.pool
    rw [Pool, hpc] at hpool
    exact hpool
  idle hpc hpos := by
    have hlt : s.freeThreadsCount - 1 < s.freeThreads.length := by
      have := h.freeCount
      rw [h.freeThreads]
      omega
    have hget := List.getElem?_eq_getElem hlt
    refine ⟨_, hget, h.idle _ ?_⟩
    rw [free, List.mem_take_iff_getElem]
    exact ⟨_, by omega, rfl⟩
  kept := h.kept

/-! ## What a step does -/

/-- The state after the `memcpy`. -/
def copied (s : Server) (n : Nat) : Server :=
  { s with
    pc := .head
    occupiedThreads := memcpyPointers s.occupiedThreads s.temp n
    occupiedThreadsCount := n }

theorem recv_cases {info : Int} {clientAddr : SockaddrIn} (hs : step base s (.recv info clientAddr) = some t) :
    s.pc = .head ∧ ((info = -1 ∧ t = { s with pc := .stopped }) ∨ (info ≠ -1 ∧
      ∃ u, (0 < s.freeThreadsCount ∧ assign base s info clientAddr = some u ∨ ¬ 0 < s.freeThreadsCount ∧ u = s) ∧
        t = { u with pc := .sweep 0 0, temp := callocTemp u.occupiedThreadsCount, found := [] })) := by
  simp only [step] at hs
  split at hs
  case h_2 => cases hs
  case h_1 hpc =>
    refine ⟨hpc, ?_⟩
    by_cases hstop : info = -1
    · rw [if_pos hstop] at hs
      exact Or.inl ⟨hstop, (Option.some.inj hs).symm⟩
    · rw [if_neg hstop] at hs
      obtain ⟨u, hu, rfl⟩ := Option.map_eq_some_iff.1 hs
      refine Or.inr ⟨hstop, u, ?_, rfl⟩
      by_cases hpos : 0 < s.freeThreadsCount
      · rw [if_pos hpos] at hu
        exact Or.inl ⟨hpos, hu⟩
      · rw [if_neg hpos] at hu
        exact Or.inr ⟨hpos, (Option.some.inj hu).symm⟩

theorem assign_cases {info : Int} {clientAddr : SockaddrIn} (hs : assign base s info clientAddr = some t) :
    ∃ thread worker occupiedThreads, s.freeThreads[s.freeThreadsCount - 1]? = some thread ∧
      workerAt base thread = some worker ∧
      store s.occupiedThreads s.occupiedThreadsCount thread = some occupiedThreads ∧
      t = { s with
        threads := s.threads.set worker ⟨info, clientAddr, true, s.accepted.length⟩
        freeThreadsCount := s.freeThreadsCount - 1
        occupiedThreads := occupiedThreads
        occupiedThreadsCount := s.occupiedThreadsCount + 1
        accepted := s.accepted ++ [(info, clientAddr)] } := by
  simp only [assign, Option.bind_eq_bind, Option.bind_eq_some_iff] at hs
  obtain ⟨thread, hthread, worker, hat, occupiedThreads, hstore, ht⟩ := hs
  exact ⟨thread, worker, occupiedThreads, hthread, hat, hstore, (Option.some.inj ht).symm⟩

theorem sweepRound_cases {i n : Nat} (hs : sweepRound base s i n = some t) : ∃ thread worker info,
    s.occupiedThreads[i]? = some thread ∧ workerAt base thread = some worker ∧ s.threads[worker]? = some info ∧
    ((info.threadWorkingFlag = false ∧ ∃ freeThreads, store s.freeThreads s.freeThreadsCount thread = some freeThreads ∧
        t = { s with
          pc := .sweep (i + 1) n
          freeThreads := freeThreads
          freeThreadsCount := s.freeThreadsCount + 1
          found := s.found ++ [false] }) ∨
      (info.threadWorkingFlag = true ∧ ∃ temp, store s.temp n thread = some temp ∧
        t = { s with pc := .sweep (i + 1) (n + 1), temp := temp, found := s.found ++ [true] })) := by
  simp only [sweepRound, Option.bind_eq_bind, Option.bind_eq_some_iff] at hs
  obtain ⟨thread, hthread, worker, hat, info, hinfo, hs⟩ := hs
  refine ⟨thread, worker, info, hthread, hat, hinfo, ?_⟩
  by_cases hflag : info.threadWorkingFlag = false
  · simp only [if_pos hflag, Option.bind_eq_some_iff] at hs
    obtain ⟨freeThreads, hstore, ht⟩ := hs
    exact Or.inl ⟨hflag, freeThreads, hstore, (Option.some.inj ht).symm⟩
  · simp only [if_neg hflag, Option.bind_eq_some_iff] at hs
    obtain ⟨temp, hstore, ht⟩ := hs
    exact Or.inr ⟨Bool.not_eq_false _ ▸ hflag, temp, hstore, (Option.some.inj ht).symm⟩

theorem server_cases (hs : step base s .server = some t) : ∃ i n, s.pc = .sweep i n ∧
    ((i < s.occupiedThreadsCount ∧ sweepRound base s i n = some t) ∨
      (¬ i < s.occupiedThreadsCount ∧ t = copied s n)) := by
  simp only [step] at hs
  split at hs
  case h_2 => cases hs
  case h_1 i n hpc =>
    refine ⟨i, n, hpc, ?_⟩
    by_cases hlt : i < s.occupiedThreadsCount
    · rw [if_pos hlt] at hs
      exact Or.inl ⟨hlt, hs⟩
    · rw [if_neg hlt] at hs
      exact Or.inr ⟨hlt, (Option.some.inj hs).symm⟩

theorem finish_cases {worker : Nat} (hs : step base s (.finish worker) = some t) :
    ∃ info, s.threads[worker]? = some info ∧ info.threadWorkingFlag = true ∧
      t = { s with
        threads := s.threads.set worker { info with order := answer info.order, threadWorkingFlag := false }
        replies := s.replies ++ [(info.job, answer info.order, info.clientAddr)] } := by
  simp only [step] at hs
  split at hs
  · cases hs
  · rename_i info hw hnot
    by_cases hflag : info.threadWorkingFlag
    · rw [if_pos hflag] at hs
      exact ⟨info, hw, hflag, (Option.some.inj hs).symm⟩
    · rw [if_neg hflag] at hs
      cases hs
  · cases hs

/-! ## A worker finishes -/

/-- A write to the fields of another worker. -/
theorem Idle.set_ne {i worker : Nat} {info : ThreadInfo} (h : Idle base s (workerAddr base i)) (hne : worker ≠ i)
    (ht : t.threads = s.threads.set worker info) : Idle base t (workerAddr base i) := by
  obtain ⟨j, info', hj, hij, hget, hidle⟩ := h
  obtain rfl := workerAddr_injective hij
  exact ⟨i, info', hj, rfl, by rw [ht, List.getElem?_set_ne hne, hget], hidle⟩

theorem Idle.finish {p worker : Nat} {info : ThreadInfo} (h : Idle base s p) (hflag : info.threadWorkingFlag = false)
    (hworker : worker < s.threads.length) (ht : t.threads = s.threads.set worker info) : Idle base t p := by
  have hidle := h
  obtain ⟨i, info', hi, rfl, hget, -⟩ := h
  by_cases hiw : worker = i
  · subst hiw
    exact ⟨worker, info, hi, rfl, by rw [ht, List.getElem?_set_self hworker], hflag⟩
  · exact hidle.set_ne hiw ht

theorem OrderKept.finish {worker k : Nat} {info info' : ThreadInfo} {order : Int × SockaddrIn} (h : OrderKept s k order)
    (hw : s.threads[worker]? = some info) (ht : t.threads = s.threads.set worker info')
    (hr : t.replies = s.replies ++ [(info.job, answer info.order, info.clientAddr)]) : OrderKept t k order := by
  rcases h with hsent | hworking
  · exact Or.inl (by rw [hr]; exact List.mem_append_left _ hsent)
  · obtain ⟨i, hi⟩ := List.mem_iff_getElem?.1 hworking
    by_cases hiw : worker = i
    · subst hiw
      obtain rfl := Option.some.inj (hw.symm.trans hi)
      exact Or.inl (by rw [hr]; exact List.mem_append_right _ (List.mem_singleton_self _))
    · exact Or.inr (List.mem_iff_getElem?.2 ⟨i, by rw [ht, List.getElem?_set_ne hiw, hi]⟩)

theorem PoolInv.finish {worker : Nat} (h : PoolInv base s) (hs : step base s (.finish worker) = some t) :
    PoolInv base t := by
  obtain ⟨info, hw, -, rfl⟩ := finish_cases hs
  have hlen : worker < s.threads.length := (List.getElem?_eq_some_iff.1 hw).1
  constructor
  case threads => rw [List.length_set, h.threads]
  case freeThreads => exact h.freeThreads
  case occupiedThreads => exact h.occupiedThreads
  case bound => exact h.bound
  case freeCount => exact h.freeCount
  case occupiedCount => exact h.occupiedCount
  case pool =>
    have hpool := h.pool
    unfold Pool at hpool ⊢
    cases hpc : s.pc with
    | head => rw [hpc] at hpool; exact hpool
    | sweep i n =>
      rw [hpc] at hpool
      exact ⟨hpool.pool, hpool.nodup, hpool.subset, hpool.round, hpool.found, hpool.count, hpool.temp⟩
    | stopped => trivial
  case idle => exact fun p hp => (h.idle p hp).finish rfl hlen rfl
  case kept => exact fun k order hk => (h.kept k order hk).finish hw rfl rfl

/-! ## A request is received -/

theorem take_store {xs ys : List Nat} {i v : Nat} (h : store xs i v = some ys) :
    i < xs.length ∧ ys = xs.set i v ∧ ys.take (i + 1) = xs.take i ++ [v] := by
  rw [store] at h
  split at h
  case isFalse => cases h
  case isTrue hi =>
    obtain rfl := Option.some.inj h
    refine ⟨hi, rfl, ?_⟩
    rw [List.take_add_one, List.getElem?_set_self hi, List.take_set_of_le (Nat.le_refl i)]
    rfl

theorem stillWorking_nil (h : s.found = []) : stillWorking s = [] := by
  rw [stillWorking, h]
  cases occupied s <;> rfl

theorem PoolInv.begin (h : PoolInv base s) (hpool : (free s ++ occupied s).Perm (workers base)) :
    PoolInv base { s with pc := .sweep 0 0, temp := callocTemp s.occupiedThreadsCount, found := [] } := by
  have hnd := hpool.nodup_iff.2 (nodup_workers base)
  refine ⟨h.threads, h.freeThreads, h.occupiedThreads, h.bound, h.freeCount, h.occupiedCount, ?_, h.idle, h.kept⟩
  constructor
  case pool => rw [stillWorking_nil rfl]; exact hpool
  case nodup => exact (List.nodup_append.1 hnd).2.1
  case subset => exact fun p hp => hpool.subset (List.mem_append_right _ hp)
  case round => exact Nat.zero_le _
  case found => rfl
  case count => rw [stillWorking_nil rfl]; rfl
  case temp => rw [stillWorking_nil rfl]; rfl

/-- The order the last free worker is handed takes the place of one already answered. -/
theorem OrderKept.assign {worker k : Nat} {info : ThreadInfo} {order : Int × SockaddrIn} (h : OrderKept s k order)
    (hidle : Idle base s (workerAddr base worker)) (ht : t.threads = s.threads.set worker info)
    (hr : t.replies = s.replies) : OrderKept t k order := by
  rcases h with hsent | hworking
  · exact Or.inl (by rw [hr]; exact hsent)
  · obtain ⟨i, hi⟩ := List.mem_iff_getElem?.1 hworking
    have hne : worker ≠ i := by
      rintro rfl
      obtain ⟨j, info', -, hij, hget, hflag⟩ := hidle
      obtain rfl := workerAddr_injective hij
      obtain rfl := Option.some.inj (hi.symm.trans hget)
      cases hflag
    exact Or.inr (List.mem_iff_getElem?.2 ⟨i, by rw [ht, List.getElem?_set_ne hne, hi]⟩)

theorem free_eq_concat {thread : Nat} (hpos : 0 < s.freeThreadsCount)
    (hthread : s.freeThreads[s.freeThreadsCount - 1]? = some thread) :
    free s = s.freeThreads.take (s.freeThreadsCount - 1) ++ [thread] := by
  have hsucc : s.freeThreadsCount = s.freeThreadsCount - 1 + 1 := by omega
  rw [free]
  conv_lhs => rw [hsucc]
  rw [List.take_add_one, hthread]
  rfl

/-- The new order is the worker's, and every earlier one is kept. -/
theorem orderKept_assign {worker k : Nat} {order order' : Int × SockaddrIn}
    (hkept : ∀ k order, s.accepted[k]? = some order → OrderKept s k order)
    (hidle : Idle base s (workerAddr base worker)) (hlen : worker < s.threads.length)
    (ht : t.threads = s.threads.set worker ⟨order.1, order.2, true, s.accepted.length⟩) (hr : t.replies = s.replies)
    (hk : (s.accepted ++ [order])[k]? = some order') : OrderKept t k order' := by
  by_cases hold : k < s.accepted.length
  · rw [List.getElem?_append_left hold] at hk
    exact (hkept k order' hk).assign hidle ht hr
  · have hlt := (List.getElem?_eq_some_iff.1 hk).1
    rw [List.length_append, List.length_singleton] at hlt
    obtain rfl : k = s.accepted.length := by omega
    rw [List.getElem?_concat_length] at hk
    obtain rfl := Option.some.inj hk
    exact Or.inr (List.mem_iff_getElem?.2 ⟨worker, by rw [ht]; exact List.getElem?_set_self hlen⟩)

theorem PoolInv.assign (hbase : base + threadInfoSize * threadCount ≤ pointerValues) {info : Int}
    {clientAddr : SockaddrIn} (h : PoolInv base s) (hpc : s.pc = .head) (hpos : 0 < s.freeThreadsCount)
    (hs : assign base s info clientAddr = some t) : PoolInv base t ∧ t.pc = .head := by
  have hpool := h.ok.partition hpc
  obtain ⟨thread, worker, occupiedThreads, hthread, hat, hstore, rfl⟩ := assign_cases hs
  obtain ⟨hworker, rfl⟩ := workerAt_eq_some.1 hat
  obtain ⟨hbelow, hset, htake⟩ := take_store hstore
  have hfree := free_eq_concat hpos hthread
  have hnd := hpool.nodup_iff.2 (nodup_workers base)
  rw [hfree] at hnd
  have hlen : worker < s.threads.length := by rw [h.threads]; exact hworker
  have hidle : Idle base s (workerAddr base worker) := h.idle _ (by rw [hfree]; simp)
  refine ⟨?_, hpc⟩
  constructor
  case threads => rw [List.length_set, h.threads]
  case freeThreads => exact h.freeThreads
  case occupiedThreads => rw [hset, List.length_set, h.occupiedThreads]
  case bound =>
    intro p hp
    rw [hset] at hp
    rcases List.mem_or_eq_of_mem_set hp with hp | rfl
    · exact h.bound p hp
    · exact lt_of_mem_workers hbase (mem_workers.2 ⟨worker, hworker, rfl⟩)
  case freeCount => exact (Nat.sub_le _ 1).trans h.freeCount
  case occupiedCount => rw [← h.occupiedThreads]; exact hbelow
  case pool =>
    unfold Pool
    rw [hpc]
    simp only [free, occupied]
    rw [htake, ← occupied, ← List.append_assoc]
    have hswap : (s.freeThreads.take (s.freeThreadsCount - 1) ++ occupied s ++ [workerAddr base worker]).Perm
        (free s ++ occupied s) := by
      rw [hfree, List.append_assoc, List.append_assoc]
      exact List.perm_append_comm.append_left _
    exact hswap.trans hpool
  case idle =>
    intro p hp
    have hold := h.idle p (by rw [hfree]; exact List.mem_append_left _ hp)
    have hfound := hold
    obtain ⟨i, -, -, rfl, -⟩ := hfound
    refine hold.set_ne ?_ rfl
    rintro rfl
    obtain ⟨hndf, -, -⟩ := List.nodup_append.1 hnd
    exact (List.nodup_append.1 hndf).2.2 _ hp _ (List.mem_singleton_self _) rfl
  case kept => exact fun k order hk => orderKept_assign h.kept hidle hlen rfl rfl hk

theorem PoolInv.recv (hbase : base + threadInfoSize * threadCount ≤ pointerValues) {info : Int}
    {clientAddr : SockaddrIn} (h : PoolInv base s) (hs : step base s (.recv info clientAddr) = some t) :
    PoolInv base t := by
  obtain ⟨hpc, ⟨-, rfl⟩ | ⟨-, u, ⟨hpos, hu⟩ | ⟨-, rfl⟩, rfl⟩⟩ := recv_cases hs
  · exact ⟨h.threads, h.freeThreads, h.occupiedThreads, h.bound, h.freeCount, h.occupiedCount, trivial, h.idle, h.kept⟩
  · obtain ⟨hinv, hhead⟩ := h.assign hbase hpc hpos hu
    exact hinv.begin (hinv.ok.partition hhead)
  · exact h.begin (h.ok.partition hpc)

/-! ## The sweep -/

theorem flagged_concat {p : Nat} {b : Bool} : ∀ {ps : List Nat} {bs : List Bool}, ps[bs.length]? = some p →
    flagged ps (bs ++ [b]) = flagged ps bs ++ if b then [p] else []
  | [], _, h => nomatch h
  | q :: ps, [], h => by
    obtain rfl := Option.some.inj h
    cases b <;> cases ps <;> rfl
  | q :: ps, c :: bs, h => by
    have ih : flagged ps (bs ++ [b]) = flagged ps bs ++ if b then [p] else [] := flagged_concat h
    cases c with
    | true => exact congrArg (q :: ·) ih
    | false => exact ih

theorem flagged_sublist : ∀ (ps : List Nat) (bs : List Bool), (flagged ps bs).Sublist ps
  | [], _ => List.Sublist.refl []
  | _ :: _, [] => List.nil_sublist _
  | p :: ps, b :: bs => by
    have ih := flagged_sublist ps bs
    cases b with
    | true => exact ih.cons_cons p
    | false => exact ih.cons p

theorem PoolInv.round {i n : Nat} (h : PoolInv base s) (hpc : s.pc = .sweep i n) (hlt : i < s.occupiedThreadsCount)
    (hs : sweepRound base s i n = some t) : PoolInv base t := by
  have hpool := h.pool
  rw [Pool, hpc] at hpool
  obtain ⟨thread, worker, info, hthread, hat, hinfo, hmoved⟩ := sweepRound_cases hs
  have hget : (occupied s)[s.found.length]? = some thread := by
    rw [hpool.found, occupied, List.getElem?_take_of_lt hlt, hthread]
  have hdrop : (occupied s).drop i = thread :: (occupied s).drop (i + 1) := by
    rw [hpool.found] at hget
    rw [List.drop_eq_getElem?_toList_append, hget]
    rfl
  have hperm := hpool.pool
  rw [hdrop] at hperm
  rcases hmoved with ⟨hflag, freeThreads, hstore, rfl⟩ | ⟨-, temp, hstore, rfl⟩
  · -- a worker that has finished
    obtain ⟨hbelow, hset, htake⟩ := take_store hstore
    obtain ⟨hworker, hthreadAddr⟩ := workerAt_eq_some.1 hat
    have hsame : flagged (occupied s) (s.found ++ [false]) = stillWorking s :=
      (flagged_concat hget).trans (List.append_nil _)
    constructor
    case threads => exact h.threads
    case freeThreads => rw [hset, List.length_set, h.freeThreads]
    case occupiedThreads => exact h.occupiedThreads
    case bound => exact h.bound
    case freeCount => rw [← h.freeThreads]; exact hbelow
    case occupiedCount => exact h.occupiedCount
    case pool =>
      constructor
      case pool =>
        simp only [free, stillWorking]
        rw [htake, ← free, List.append_assoc]
        refine List.Perm.trans (List.Perm.append_left _ ?_) hperm
        have hmiddle : (thread :: (stillWorking s ++ (occupied s).drop (i + 1))).Perm
            (stillWorking s ++ thread :: (occupied s).drop (i + 1)) := List.perm_middle.symm
        rw [← hsame] at hmiddle ⊢
        exact hmiddle
      case nodup => exact hpool.nodup
      case subset => exact hpool.subset
      case round => exact hlt
      case found => rw [List.length_append, hpool.found]; rfl
      case count => exact (congrArg List.length hsame).trans hpool.count
      case temp => exact hpool.temp.trans hsame.symm
    case idle =>
      intro p hp
      simp only [free] at hp
      rw [htake, List.mem_append, List.mem_singleton] at hp
      rcases hp with hp | rfl
      · exact h.idle p hp
      · exact ⟨worker, info, hworker, hthreadAddr, hinfo, hflag⟩
    case kept => exact h.kept
  · -- a worker still working
    obtain ⟨-, -, htake⟩ := take_store hstore
    have hmore : flagged (occupied s) (s.found ++ [true]) = stillWorking s ++ [thread] := flagged_concat hget
    refine ⟨h.threads, h.freeThreads, h.occupiedThreads, h.bound, h.freeCount, h.occupiedCount, ?_, h.idle, h.kept⟩
    constructor
    case pool =>
      change (free s ++ (flagged (occupied s) (s.found ++ [true]) ++ (occupied s).drop (i + 1))).Perm (workers base)
      rw [hmore, List.append_assoc]
      exact hperm
    case nodup => exact hpool.nodup
    case subset => exact hpool.subset
    case round => exact hlt
    case found => rw [List.length_append, hpool.found]; rfl
    case count =>
      change (flagged (occupied s) (s.found ++ [true])).length = n + 1
      rw [hmore, List.length_append, hpool.count]
      rfl
    case temp =>
      change temp.take (n + 1) = flagged (occupied s) (s.found ++ [true])
      rw [htake, hmore, hpool.temp]

/-! ## The end of the sweep -/

/-- **The pool is whole after a sweep exactly when the sweep copies back what it found.** -/
theorem partition_copied_iff {n : Nat} (h : PoolInv base s) (hsweep : SweepInv base s s.occupiedThreadsCount n) :
    (free (copied s n) ++ occupied (copied s n)).Perm (workers base) ↔
      stillWorking s <+: occupied s ∨ LoneNeighbour (occupied s) (stillWorking s) := by
  have hperm := hsweep.pool
  have hdrop : (occupied s).drop s.occupiedThreadsCount = [] := List.drop_eq_nil_of_le (by rw [h.length_occupied])
  rw [hdrop, List.append_nil] at hperm
  have hocc : s.occupiedThreads = occupied s ++ s.occupiedThreads.drop s.occupiedThreadsCount :=
    (List.take_append_drop _ _).symm
  have htemp : s.temp = stillWorking s ++ s.temp.drop n := by
    rw [← hsweep.temp, List.take_append_drop]
  have hcopy : occupied (copied s n) = (memcpyPointers (occupied s ++ s.occupiedThreads.drop s.occupiedThreadsCount)
      (stillWorking s ++ s.temp.drop n) (stillWorking s).length).take (stillWorking s).length := by
    rw [← hocc, ← htemp, hsweep.count]
    rfl
  have hlen : (occupied s).length ≤ 10 := by
    rw [h.length_occupied]
    exact h.occupiedCount
  have hsub : (stillWorking s).Sublist (occupied s) := flagged_sublist _ _
  rw [← compact_perm_iff (s.temp.drop n) hsub hsweep.nodup ((lowBytes_workers base).subset hsweep.subset)
    (by rw [← hocc]; exact h.bound) hlen, ← hcopy]
  constructor
  · exact fun hnew => (List.perm_append_left_iff _).1 (hnew.trans hperm.symm)
  · exact fun hnew => (hnew.append_left _).trans hperm

theorem SweepInv.ended {i n : Nat} (h : PoolInv base s) (hpc : s.pc = .sweep i n) (hge : ¬ i < s.occupiedThreadsCount) :
    SweepInv base s s.occupiedThreadsCount n := by
  have hpool := h.pool
  rw [Pool, hpc] at hpool
  have hround := hpool.round
  obtain rfl : i = s.occupiedThreadsCount := by omega
  exact hpool

theorem PoolInv.server (h : PoolInv base s) (hok : copiesBack s .server) (hs : step base s .server = some t) :
    PoolInv base t := by
  obtain ⟨i, n, hpc, ⟨hlt, hround⟩ | ⟨hge, rfl⟩⟩ := server_cases hs
  · exact h.round hpc hlt hround
  · have hsweep := SweepInv.ended h hpc hge
    have hcopies : stillWorking s <+: occupied s ∨ LoneNeighbour (occupied s) (stillWorking s) := by
      simp only [copiesBack, hpc, endsWell] at hok
      exact hok.resolve_left hge
    have hle : (stillWorking s).length ≤ (occupied s).length := (flagged_sublist _ _).length_le
    have hcount := h.occupiedCount
    rw [hsweep.count, h.length_occupied] at hle
    constructor
    case threads => exact h.threads
    case freeThreads => exact h.freeThreads
    case occupiedThreads => exact (length_memcpyPointers _ _ _).trans h.occupiedThreads
    case bound => exact fun p hp => lt_of_mem_memcpyPointers hp
    case freeCount => exact h.freeCount
    case occupiedCount => exact hle.trans hcount
    case pool => exact (partition_copied_iff h hsweep).2 hcopies
    case idle => exact h.idle
    case kept => exact h.kept

theorem not_partition_of_copy (h : PoolInv base s) (hbad : ¬ copiesBack s .server) (hs : step base s .server = some t) :
    ¬ PoolOk base t := by
  obtain ⟨i, n, hpc, hcase⟩ := server_cases hs
  simp only [copiesBack, hpc, endsWell, not_or] at hbad
  rcases hcase with ⟨hlt, -⟩ | ⟨hge, rfl⟩
  · exact absurd hlt hbad.1
  · have hsweep := SweepInv.ended h hpc hge
    intro hok
    exact ((partition_copied_iff h hsweep).1 (hok.partition rfl)).elim hbad.2.1 hbad.2.2

theorem poolInv_start (base : Nat) : PoolInv base (start base) where
  threads := List.length_replicate
  freeThreads := length_workers base
  occupiedThreads := List.length_replicate
  bound p hp := by
    rw [List.eq_of_mem_replicate hp]
    exact Nat.pow_pos (by decide)
  freeCount := Nat.le_refl _
  occupiedCount := Nat.zero_le _
  pool := by
    have hfree : free (start base) = workers base := List.take_of_length_le (Nat.le_of_eq (length_workers base))
    have hocc : occupied (start base) = [] := List.take_zero
    change (free (start base) ++ occupied (start base)).Perm (workers base)
    rw [hfree, hocc, List.append_nil]
  idle p hp := by
    obtain ⟨i, hi, rfl⟩ := mem_workers.1 (List.mem_of_mem_take hp)
    exact ⟨i, _, hi, rfl, List.getElem?_replicate_of_lt hi, rfl⟩
  kept _ _ h := nomatch h

/-- **The pool stays whole, and no order is lost, exactly along the runs whose sweeps copy back what they found**: the
byte count of the `memcpy` should have been eight times as large. -/
theorem pool_ok_iff (base : Nat) (hbase : base + threadInfoSize * threadCount ≤ pointerValues) (es : List Event)
    (s : Server) (hrun : Run.run (step base) (start base) es = some s) :
    Run.Always (step base) (PoolOk base) (start base) es ↔ Run.Steps (step base) copiesBack (start base) es := by
  refine Run.always_iff_steps (PoolInv base) (fun s e t h hok hs => ?_) (fun _ h => h.ok) (fun s e t h hok hs => ?_)
    (poolInv_start base) hrun
  · cases e with
    | recv info clientAddr => exact h.recv hbase hs
    | server => exact h.server hok hs
    | finish worker => exact h.finish hs
  · cases e with
    | recv info clientAddr => exact absurd trivial hok
    | server => exact not_partition_of_copy h hok hs
    | finish worker => exact absurd trivial hok

/-- Two orders, the second one answered first. -/
theorem pool_ok_of_second_answered : Run.Always (step 4096) (PoolOk 4096) (start 4096)
    [.recv 1 ⟨1, 1⟩, .server, .server, .recv 2 ⟨1, 2⟩, .finish 8, .server, .server, .server] :=
  (pool_ok_iff 4096 (by decide) _
    ((Run.run (step 4096) (start 4096)
      [.recv 1 ⟨1, 1⟩, .server, .server, .recv 2 ⟨1, 2⟩, .finish 8, .server, .server, .server]).get rfl) rfl).2 (by decide)

/-- Three orders, the first one answered first: worker 8 is listed twice and worker 7 is lost. -/
theorem first_answered_loses_worker : ∃ s, Run.run (step 4096) (start 4096)
    [.recv 1 ⟨1, 1⟩, .server, .server, .recv 2 ⟨1, 2⟩, .server, .server, .server, .recv 3 ⟨1, 3⟩, .finish 9,
      .server, .server, .server, .server] = some s ∧
    s.pc = .head ∧ occupied s = [workerAddr 4096 8, workerAddr 4096 8] ∧ ¬ PoolOk 4096 s := by
  refine ⟨_, rfl, rfl, by decide, fun h => absurd (h.partition rfl) (by decide)⟩

end ManCon
end Eltex
