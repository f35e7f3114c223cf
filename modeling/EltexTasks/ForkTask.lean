import EltexTasks.ProcessTree
/-!
# ForkTask — the processes of `fork_task`

fork_task/source/fork_task.c, as programs of `ProcessTree`.  `fork_task` and the children it forks say who they are,
fork theirs and wait for them in order, whatever order the six processes run in.
-/
namespace Eltex
namespace ForkTask

open Run (run)
open ProcessTree

def grandchild : Program := .forks []

def child1 : Program := .forks [grandchild, grandchild]

def child2 : Program := .forks [grandchild]

def forkTask : Program := .forks [child1, child2]

variable {buffered : Bool} {es : List Nat} {s : State}

/-- The six processes make 22 calls. -/
theorem length_run_forkTask (hrun : run (step buffered) (start forkTask) es = some s) :
    es.length + total callsLeft s = 22 := by
  have := length_run hrun
  have hsize : forkTask.size = 6 := rfl
  omega

theorem alive_iff (hrun : run (step buffered) (start forkTask) es = some s) :
    (∃ i, Alive s i) ↔ es.length < 22 := by
  have hlen := length_run_forkTask hrun
  have hzero := (family_run hrun).total_callsLeft
  constructor
  · intro h
    have : total callsLeft s ≠ 0 := fun h0 => hzero.1 h0 h
    omega
  · intro h
    by_contra hnone
    have := hzero.2 hnone
    omega

/-- **Every line names the process's true parent, and nobody is left behind**: a run goes on until it has 22 calls,
`fork_task` exits in the last of them, and by then the six processes have exited and each of the others has been waited
for. -/
theorem forkTask_waits (buffered : Bool) (es : List Nat) (s : State)
    (hrun : run (step buffered) (start forkTask) es = some s) :
    (∀ l, Said s l → parentOf s l.pid = some l.ppid) ∧
    es.length ≤ 22 ∧
    (es.length < 22 → ∃ i t, step buffered s i = some t) ∧
    (∀ r : Process, s.procs[0]? = some r → (r.exited = true ↔ es.length = 22)) ∧
    (es.length = 22 → s.procs.length = 6 ∧
      ∀ (i : Nat) (p : Process), s.procs[i]? = some p → p.exited = true ∧ (i ≠ 0 → p.reaped = true)) := by
  have hfam := family_run hrun
  have hlen := length_run_forkTask hrun
  have halive := alive_iff hrun
  have hended : es.length = 22 → ∀ (i : Nat) (p : Process), s.procs[i]? = some p → p.exited = true := by
    intro h i p hp
    cases hpe : p.exited with
    | true => rfl
    | false =>
      have := halive.1 ⟨i, p, hp, hpe⟩
      omega
  refine ⟨trueLines_run hrun, by omega, fun h => hfam.step_of_alive (halive.2 h), fun r hr => ⟨fun hre => ?_, ?_⟩,
    fun h => ⟨?_, fun i p hp => ⟨hended h i p hp, ?_⟩⟩⟩
  · have hnone : ¬ ∃ i, Alive s i := by
      rintro ⟨i, p, hp, hpe⟩
      rw [hfam.all_exited hr hre i p hp] at hpe; cases hpe
    have := hfam.total_callsLeft.2 hnone
    omega
  · exact fun h => hended h 0 r hr
  · have hnone : ¬ ∃ i, Alive s i := fun hex => by have := halive.1 hex; omega
    have hmade := total_made_run hrun
    rw [hfam.total_eq_of_exited hnone (n := 1) fun p _ _ hfork => by rw [made, hfork, sizes], Nat.one_mul] at hmade
    exact hmade
  · exact hfam.all_reaped (fun hex => by have := halive.1 hex; omega) hp

/-- One order of the 22 calls: every child runs as soon as it is forked. -/
def childrenFirst : List Nat := [0, 0, 1, 1, 2, 2, 1, 3, 3, 1, 1, 1, 0, 4, 4, 5, 5, 4, 4, 0, 0, 0]

theorem forkTask_waits_childrenFirst :
    ∃ s, run (step true) (start forkTask) childrenFirst = some s ∧ ∀ l, Said s l → parentOf s l.pid = some l.ppid := by
  obtain ⟨s, hs⟩ : ∃ s, run (step true) (start forkTask) childrenFirst = some s :=
    Option.isSome_iff_exists.1 (by decide)
  exact ⟨s, hs, (forkTask_waits true childrenFirst s hs).1⟩

/-- **What is shown**: the six lines on a terminal; where the output is buffered, 14, for each process shows its
ancestors' lines before its own. -/
theorem forkTask_lines (buffered : Bool) (es : List Nat) (s : State)
    (hrun : run (step buffered) (start forkTask) es = some s) (hended : es.length = 22) :
    s.out.length = if buffered then 14 else 6 := by
  have hfam := family_run hrun
  have hnone : ¬ ∃ i, Alive s i := fun hex => by have := (alive_iff hrun).1 hex; omega
  cases buffered with
  | true =>
    have hout := length_out_buffered hrun
    rw [hfam.total_eq_of_exited hnone (n := 0) fun p hpe _ _ => by rw [copiesLeft, if_pos hpe], Nat.zero_mul] at hout
    exact hout
  | false =>
    have hout := length_out_unbuffered hrun
    rw [hfam.total_eq_of_exited hnone (n := 0) fun p _ hsaid hfork => by rw [linesLeft, if_pos hsaid, hfork, sizes],
      Nat.zero_mul] at hout
    exact hout

theorem forkTask_lines_childrenFirst :
    ∃ s, run (step true) (start forkTask) childrenFirst = some s ∧ s.out.length = 14 := by
  obtain ⟨s, hs⟩ : ∃ s, run (step true) (start forkTask) childrenFirst = some s :=
    Option.isSome_iff_exists.1 (by decide)
  exact ⟨s, hs, forkTask_lines true childrenFirst s hs rfl⟩

end ForkTask
end Eltex
