import EltexTasks.Run
import EltexTasks.Update
import Mathlib.Data.Nat.Find
/-!
# ProcessTree — processes that fork and wait (a library)

A program that says who it is, forks some processes, waits for them in the order it has forked them and exits, where
what it forks are programs of the same kind.  A step is one call of one process, in any order.  What a process prints
goes to the output at once, or waits in a buffer until the process exits; a fork copies the buffer.
-/
namespace Eltex
namespace ProcessTree

open Run (run)

/-- A program, by what it forks. -/
inductive Program where
  | forks (children : List Program)
deriving Repr

def Program.children : Program → List Program
  | .forks children => children

mutual

/-- The number of processes a program makes, its own included. -/
def Program.size : Program → Nat
  | .forks children => 1 + sizes children

def sizes : List Program → Nat
  | [] => 0
  | c :: cs => c.size + sizes cs

end

mutual

/-- The sum of the depths of the processes a program makes, where its own is `d`. -/
def Program.depths : Program → Nat → Nat
  | .forks children, d => d + depthsOf children (d + 1)

def depthsOf : List Program → Nat → Nat
  | [], _ => 0
  | c :: cs, d => c.depths d + depthsOf cs d

end

/-- "I am `pid`, My parent is `ppid`"; `none` is a process from outside the tree. -/
structure Line where
  pid : Nat
  ppid : Option Nat
deriving DecidableEq, Repr

/-- A process: who created it, what it has yet to fork, which processes it has forked and not yet waited for, what it
has done, and what it has printed into its buffer.  `reaped` is set when its parent has waited for it. -/
structure Process where
  parent : Option Nat
  toFork : List Program
  kids : List Nat
  printed : Bool
  exited : Bool
  reaped : Bool
  buffer : List Line
deriving Repr

/-- The processes in the order of their creation, which gives them their pids, and the output. -/
structure State where
  procs : List Process
  out : List Line
deriving Repr

/-- A process as it begins. -/
def begin (parent : Option Nat) (program : Program) (buffer : List Line) : Process :=
  { parent := parent, toFork := program.children, kids := [], printed := false, exited := false, reaped := false,
    buffer := buffer }

def start (program : Program) : State := { procs := [begin none program []], out := [] }

/-- `getppid`: a process whose parent has exited has been adopted from outside. -/
def getppid (s : State) (p : Process) : Option Nat :=
  p.parent.bind fun q => if (s.procs[q]?).any (fun r => !r.exited) then some q else none

variable (buffered : Bool)

/-- The next call of process `i`, whose state is `p`. -/
def call (s : State) (i : Nat) (p : Process) : Option State :=
  if p.exited then none
  else if p.printed = false then
    let line : Line := ⟨i, getppid s p⟩
    if buffered then
      some { s with procs := s.procs.set i { p with printed := true, buffer := p.buffer ++ [line] } }
    else some { procs := s.procs.set i { p with printed := true }, out := s.out ++ [line] }
  else
    match p.toFork with
    | c :: cs =>
      some { s with
        procs := s.procs.set i { p with toFork := cs, kids := p.kids ++ [s.procs.length] } ++
          [begin (some i) c p.buffer] }
    | [] =>
      match p.kids with
      | k :: ks =>
        match s.procs[k]? with
        | none => none
        | some q =>
          if q.exited then
            some { s with procs := (s.procs.set i { p with kids := ks }).set k { q with reaped := true } }
          else none
      | [] => some { procs := s.procs.set i { p with exited := true, buffer := [] }, out := s.out ++ p.buffer }

def step (s : State) (i : Nat) : Option State := (s.procs[i]?).bind (call buffered s i)

/-! ## What a step does -/

variable {buffered} {s t : State} {i : Nat} {p : Process}

/-- The four calls: a process says who it is; forks; has waited for a process that has exited; exits. -/
inductive Calls (buffered : Bool) (s : State) (i : Nat) (p : Process) : State → Prop where
  | say (hsaid : p.printed = false) (line : Line) (hline : line = ⟨i, getppid s p⟩) (hbuffered : buffered = true) :
      Calls buffered s i p { s with procs := s.procs.set i { p with printed := true, buffer := p.buffer ++ [line] } }
  | sayOut (hsaid : p.printed = false) (line : Line) (hline : line = ⟨i, getppid s p⟩) (hbuffered : buffered = false) :
      Calls buffered s i p { procs := s.procs.set i { p with printed := true }, out := s.out ++ [line] }
  | fork (hsaid : p.printed = true) (c : Program) (cs : List Program) (hfork : p.toFork = c :: cs) :
      Calls buffered s i p { s with
        procs := s.procs.set i { p with toFork := cs, kids := p.kids ++ [s.procs.length] } ++
          [begin (some i) c p.buffer] }
  | wait (hsaid : p.printed = true) (hfork : p.toFork = []) (k : Nat) (ks : List Nat) (hkids : p.kids = k :: ks)
      (q : Process) (hq : s.procs[k]? = some q) (hexited : q.exited = true) :
      Calls buffered s i p { s with procs := (s.procs.set i { p with kids := ks }).set k { q with reaped := true } }
  | exit (hsaid : p.printed = true) (hfork : p.toFork = []) (hkids : p.kids = []) :
      Calls buffered s i p { procs := s.procs.set i { p with exited := true, buffer := [] }, out := s.out ++ p.buffer }

theorem step_cases (h : step buffered s i = some t) : ∃ p, s.procs[i]? = some p ∧ p.exited = false ∧
    Calls buffered s i p t := by
  obtain ⟨p, hp, hcall⟩ := Option.bind_eq_some_iff.1 h
  refine ⟨p, hp, ?_⟩
  unfold call at hcall
  cases hexited : p.exited with
  | true => rw [if_pos hexited] at hcall; cases hcall
  | false =>
    refine ⟨rfl, ?_⟩
    rw [if_neg (by rw [hexited]; exact Bool.false_ne_true)] at hcall
    by_cases hsaid : p.printed = false
    · rw [if_pos hsaid] at hcall
      cases hb : buffered with
      | true =>
        rw [hb] at hcall
        obtain rfl := Option.some.inj hcall
        exact .say hsaid _ rfl rfl
      | false =>
        rw [hb] at hcall
        obtain rfl := Option.some.inj hcall
        exact .sayOut hsaid _ rfl rfl
    · rw [if_neg hsaid] at hcall
      have hsaid : p.printed = true := by simpa using hsaid
      split at hcall
      · rename_i c cs hfork
        obtain rfl := Option.some.inj hcall
        exact .fork hsaid c cs hfork
      · rename_i hfork
        split at hcall
        · rename_i k ks hkids
          split at hcall
          · cases hcall
          · rename_i q hq
            split at hcall
            · rename_i hqe
              obtain rfl := Option.some.inj hcall
              exact .wait hsaid hfork k ks hkids q hq hqe
            · cases hcall
        · rename_i hkids
          obtain rfl := Option.some.inj hcall
          exact .exit hsaid hfork hkids

/-! ## Who is whose child -/

/-- The creator of a process, if there is the process. -/
def parentOf (s : State) (i : Nat) : Option (Option Nat) := (s.procs[i]?).map Process.parent

theorem parentOf_of_some (hp : s.procs[i]? = some p) : parentOf s i = some p.parent := by rw [parentOf, hp]; rfl

/-- A process that has not been waited for is on its parent's list, and what has exited has nothing left to do. -/
structure Family (s : State) : Prop where
  root : ∀ i : Nat, parentOf s i = some none → i = 0
  older : ∀ i q : Nat, parentOf s i = some (some q) → q < i
  kids : ∀ (i : Nat) (p : Process), s.procs[i]? = some p → ∀ k ∈ p.kids, parentOf s k = some (some i)
  unreaped : ∀ (k : Nat) (c : Process) (q : Nat), s.procs[k]? = some c → c.reaped = false → c.parent = some q →
    ∃ p : Process, s.procs[q]? = some p ∧ k ∈ p.kids
  exited : ∀ (i : Nat) (p : Process), s.procs[i]? = some p → p.exited = true →
    p.printed = true ∧ p.toFork = [] ∧ p.kids = []
  reaped : ∀ (i : Nat) (p : Process), s.procs[i]? = some p → p.reaped = true → p.exited = true

/-- A line is shown or in a buffer. -/
def Said (s : State) (l : Line) : Prop :=
  l ∈ s.out ∨ ∃ (i : Nat) (p : Process), s.procs[i]? = some p ∧ l ∈ p.buffer

/-- Every line names the creator of its process. -/
def TrueLines (s : State) : Prop := ∀ l, Said s l → parentOf s l.pid = some l.ppid

theorem parentOf_set (hp : s.procs[i]? = some p) (p' : Process) (hparent : p'.parent = p.parent) (out : List Line)
    (j : Nat) : parentOf { procs := s.procs.set i p', out := out } j = parentOf s j := by
  unfold parentOf
  by_cases hj : i = j
  · subst hj
    rw [List.getElem?_set_self (List.getElem?_eq_some_iff.1 hp).1, hp]
    exact congrArg some hparent
  · rw [List.getElem?_set_ne hj]

theorem parentOf_append (procs : List Process) (new : Process) (out out' : List Line) {j : Nat}
    (h : (parentOf { procs := procs, out := out } j).isSome) :
    parentOf { procs := procs ++ [new], out := out' } j = parentOf { procs := procs, out := out } j := by
  unfold parentOf at h ⊢
  rw [Option.isSome_map, Option.isSome_iff_exists] at h
  obtain ⟨p, hp⟩ := h
  rw [getElem?_concat_of_some hp, hp]

/-- A process changes what it has done, not whose child it is or what it has forked. -/
theorem Family.set (h : Family s) (hp : s.procs[i]? = some p) {p' : Process} (out : List Line)
    (hparent : p'.parent = p.parent) (hkids : p'.kids = p.kids) (hreaped : p'.reaped = p.reaped)
    (hexited : p'.exited = true → p'.printed = true ∧ p'.toFork = [] ∧ p'.kids = [])
    (hstays : p.exited = true → p'.exited = true) : Family { procs := s.procs.set i p', out := out } := by
  have hparents := parentOf_set hp p' hparent out
  refine ⟨fun j hj => ?_, fun j q hj => ?_, fun j q hj k hk => ?_, fun k c q hk hc hq => ?_, fun j q hj he => ?_,
    fun j q hj hr => ?_⟩
  · rw [hparents] at hj
    exact h.root j hj
  · rw [hparents] at hj
    exact h.older j q hj
  · rw [hparents]
    rcases getElem?_set_cases hj with ⟨rfl, rfl⟩ | ⟨-, hold⟩
    · exact h.kids j p hp k (by rw [← hkids]; exact hk)
    · exact h.kids j q hold k hk
  · obtain ⟨r, hr, hmem⟩ : ∃ r : Process, s.procs[q]? = some r ∧ k ∈ r.kids := by
      rcases getElem?_set_cases hk with ⟨rfl, rfl⟩ | ⟨-, hold⟩
      · exact h.unreaped k p q hp (hreaped.symm.trans hc) (hparent.symm.trans hq)
      · exact h.unreaped k c q hold hc hq
    by_cases hqi : i = q
    · subst hqi
      refine ⟨p', List.getElem?_set_self (List.getElem?_eq_some_iff.1 hp).1, ?_⟩
      rw [hkids, Option.some.inj (hp.symm.trans hr)]
      exact hmem
    · exact ⟨r, by rw [List.getElem?_set_ne hqi]; exact hr, hmem⟩
  · rcases getElem?_set_cases hj with ⟨rfl, rfl⟩ | ⟨-, hold⟩
    · exact hexited he
    · exact h.exited j q hold he
  · rcases getElem?_set_cases hj with ⟨rfl, rfl⟩ | ⟨-, hold⟩
    · exact hstays (h.reaped j p hp (hreaped.symm.trans hr))
    · exact h.reaped j q hold hr

theorem Family.fork (h : Family s) (hp : s.procs[i]? = some p) (halive : p.exited = false) {c : Program}
    {cs : List Program} : Family { s with
      procs := s.procs.set i { p with toFork := cs, kids := p.kids ++ [s.procs.length] } ++
        [begin (some i) c p.buffer] } := by
  have hlt := (List.getElem?_eq_some_iff.1 hp).1
  have hlen : (s.procs.set i { p with toFork := cs, kids := p.kids ++ [s.procs.length] }).length = s.procs.length :=
    List.length_set
  have hset := parentOf_set hp { p with toFork := cs, kids := p.kids ++ [s.procs.length] } rfl s.out
  have hold : ∀ j q, parentOf s j = some q → parentOf { s with
      procs := s.procs.set i { p with toFork := cs, kids := p.kids ++ [s.procs.length] } ++
        [begin (some i) c p.buffer] } j = some q := by
    intro j q hj
    rw [parentOf_append _ _ s.out _ (by rw [hset, hj]; rfl), hset, hj]
  have hnew : parentOf { s with procs := s.procs.set i { p with toFork := cs, kids := p.kids ++ [s.procs.length] } ++
      [begin (some i) c p.buffer] } s.procs.length = some (some i) := by
    refine parentOf_of_some (p := begin (some i) c p.buffer) ?_
    rw [List.getElem?_append_right (Nat.le_of_eq hlen), hlen, Nat.sub_self]
    rfl
  refine ⟨fun j hj => ?_, fun j q hj => ?_, fun j q hj k hk => ?_, fun k c' q hk hc hq => ?_, fun j q hj he => ?_,
    fun j q hj hr => ?_⟩
  · obtain ⟨r, hr, hparent⟩ := Option.map_eq_some_iff.1 hj
    rcases getElem?_concat_cases hr with hset' | ⟨-, rfl⟩
    · refine h.root j ?_
      rw [← hset, parentOf, hset']
      exact congrArg some hparent
    · cases hparent
  · obtain ⟨r, hr, hparent⟩ := Option.map_eq_some_iff.1 hj
    rcases getElem?_concat_cases hr with hset' | ⟨rfl, rfl⟩
    · refine h.older j q ?_
      rw [← hset, parentOf, hset']
      exact congrArg some hparent
    · obtain rfl : i = q := Option.some.inj hparent
      rw [hlen]
      exact hlt
  · rcases getElem?_concat_cases hj with hset' | ⟨-, rfl⟩
    · rcases getElem?_set_cases hset' with ⟨rfl, rfl⟩ | ⟨-, hold'⟩
      · rcases List.mem_append.1 hk with hk | hk
        · exact hold k _ (h.kids j p hp k hk)
        · rw [List.mem_singleton.1 hk]
          exact hnew
      · exact hold k _ (h.kids j q hold' k hk)
    · cases hk
  · -- whose child it is: an earlier process's, or that of the process that forks
    have hkid : ∀ r : Process, s.procs[q]? = some r → k ∈ r.kids → ∃ r' : Process, (s.procs.set i { p with
        toFork := cs, kids := p.kids ++ [s.procs.length] } ++ [begin (some i) c p.buffer])[q]? = some r' ∧
          k ∈ r'.kids := by
      intro r hr hmem
      by_cases hqi : i = q
      · subst hqi
        refine ⟨_, getElem?_concat_of_some (List.getElem?_set_self hlt), List.mem_append_left _ ?_⟩
        rw [Option.some.inj (hp.symm.trans hr)]
        exact hmem
      · exact ⟨r, getElem?_concat_of_some (by rw [List.getElem?_set_ne hqi]; exact hr), hmem⟩
    rcases getElem?_concat_cases hk with hset' | ⟨rfl, rfl⟩
    · rcases getElem?_set_cases hset' with ⟨rfl, rfl⟩ | ⟨-, hold'⟩
      · obtain ⟨r, hr, hmem⟩ := h.unreaped k p q hp hc hq
        exact hkid r hr hmem
      · obtain ⟨r, hr, hmem⟩ := h.unreaped k c' q hold' hc hq
        exact hkid r hr hmem
    · obtain rfl : i = q := Option.some.inj hq
      refine ⟨_, getElem?_concat_of_some (List.getElem?_set_self hlt), ?_⟩
      rw [hlen]
      exact List.mem_append_right _ (List.mem_singleton_self _)
  · rcases getElem?_concat_cases hj with hset' | ⟨-, rfl⟩
    · rcases getElem?_set_cases hset' with ⟨rfl, rfl⟩ | ⟨-, hold'⟩
      · change p.exited = true at he
        rw [halive] at he; cases he
      · exact h.exited j q hold' he
    · cases he
  · rcases getElem?_concat_cases hj with hset' | ⟨-, rfl⟩
    · rcases getElem?_set_cases hset' with ⟨rfl, rfl⟩ | ⟨-, hold'⟩
      · exact h.reaped j p hp hr
      · exact h.reaped j q hold' hr
    · cases hr

/-- The first process of the list has been waited for, and leaves it. -/
theorem Family.wait (h : Family s) (hp : s.procs[i]? = some p) (halive : p.exited = false) {k : Nat} {ks : List Nat}
    (hkids : p.kids = k :: ks) {q : Process} (hq : s.procs[k]? = some q) (hexited : q.exited = true) :
    Family { s with procs := (s.procs.set i { p with kids := ks }).set k { q with reaped := true } } := by
  have hik : i ≠ k := by
    rintro rfl
    rw [hp] at hq
    rw [Option.some.inj hq, hexited] at halive; cases halive
  have hk' : (s.procs.set i { p with kids := ks })[k]? = some q := by rw [List.getElem?_set_ne hik]; exact hq
  have hparents : ∀ j, parentOf { s with procs :=
      (s.procs.set i { p with kids := ks }).set k { q with reaped := true } } j = parentOf s j := fun j =>
    (parentOf_set (s := { s with procs := s.procs.set i { p with kids := ks } }) hk'
      { q with reaped := true } rfl s.out j).trans (parentOf_set hp { p with kids := ks } rfl s.out j)
  -- what a process of the new state was
  have hcases : ∀ (j : Nat) (r : Process), ((s.procs.set i { p with kids := ks }).set k { q with reaped := true })[j]? =
      some r → (j = k ∧ r = { q with reaped := true }) ∨ (j ≠ k ∧ j = i ∧ r = { p with kids := ks }) ∨
        (j ≠ k ∧ j ≠ i ∧ s.procs[j]? = some r) := by
    intro j r hj
    rcases getElem?_set_cases hj with hjk | ⟨hjk, hj⟩
    · exact .inl hjk
    · rcases getElem?_set_cases hj with hji | hji
      · exact .inr (.inl ⟨hjk, hji⟩)
      · exact .inr (.inr ⟨hjk, hji⟩)
  have hki : parentOf s k = some (some i) := h.kids i p hp k (by rw [hkids]; exact List.mem_cons_self)
  refine ⟨fun j hj => ?_, fun j q' hj => ?_, fun j r hj x hx => ?_, fun x c q' hx hc hq' => ?_, fun j r hj he => ?_,
    fun j r hj hr => ?_⟩
  · rw [hparents] at hj
    exact h.root j hj
  · rw [hparents] at hj
    exact h.older j q' hj
  · rw [hparents]
    rcases hcases j r hj with ⟨rfl, rfl⟩ | ⟨-, rfl, rfl⟩ | ⟨-, -, hold⟩
    · exact h.kids j q hq x hx
    · exact h.kids j p hp x (by rw [hkids]; exact List.mem_cons_of_mem _ hx)
    · exact h.kids j r hold x hx
  · -- it is still on its parent's list, where that is `i` behind `k`
    obtain ⟨hxk, r, hr, hmem⟩ : x ≠ k ∧ ∃ r : Process, s.procs[q']? = some r ∧ x ∈ r.kids := by
      rcases hcases x c hx with ⟨rfl, rfl⟩ | ⟨hxk, rfl, rfl⟩ | ⟨hxk, -, hold⟩
      · cases hc
      · exact ⟨hxk, h.unreaped x p q' hp hc hq'⟩
      · exact ⟨hxk, h.unreaped x c q' hold hc hq'⟩
    by_cases hqi : i = q'
    · subst hqi
      refine ⟨{ p with kids := ks }, ?_, ?_⟩
      · rw [List.getElem?_set_ne (Ne.symm hik), List.getElem?_set_self (List.getElem?_eq_some_iff.1 hp).1]
      · rw [← Option.some.inj (hp.symm.trans hr), hkids] at hmem
        rcases List.mem_cons.1 hmem with rfl | hmem
        · exact absurd rfl hxk
        · exact hmem
    · by_cases hqk : k = q'
      · subst hqk
        refine ⟨{ q with reaped := true }, List.getElem?_set_self (List.getElem?_eq_some_iff.1 hk').1, ?_⟩
        rw [Option.some.inj (hq.symm.trans hr)]
        exact hmem
      · exact ⟨r, by rw [List.getElem?_set_ne hqk, List.getElem?_set_ne hqi]; exact hr, hmem⟩
  · rcases hcases j r hj with ⟨rfl, rfl⟩ | ⟨-, rfl, rfl⟩ | ⟨-, -, hold⟩
    · exact h.exited j q hq hexited
    · change p.exited = true at he
      rw [halive] at he; cases he
    · exact h.exited j r hold he
  · rcases hcases j r hj with ⟨rfl, rfl⟩ | ⟨-, rfl, rfl⟩ | ⟨-, -, hold⟩
    · exact hexited
    · exact h.reaped j p hp hr
    · exact h.reaped j r hold hr

theorem Family.step (h : Family s) (hstep : step buffered s i = some t) : Family t := by
  obtain ⟨p, hp, halive, hcalls⟩ := step_cases hstep
  have hdead : ∀ {P : Prop}, p.exited = true → P := fun hdead => by rw [halive] at hdead; cases hdead
  cases hcalls with
  | say hsaid line hline hb => exact h.set hp _ rfl rfl rfl hdead id
  | sayOut hsaid line hline hb => exact h.set hp _ rfl rfl rfl hdead id
  | fork hsaid c cs hfork => exact h.fork hp halive
  | wait hsaid hfork k ks hkids q hq hexited => exact h.wait hp halive hkids hq hexited
  | exit hsaid hfork hkids => exact h.set hp _ rfl rfl rfl (fun _ => ⟨hsaid, hfork, hkids⟩) fun _ => rfl

theorem family_start (program : Program) : Family (start program) := by
  have honly : ∀ (j : Nat) (r : Process), (start program).procs[j]? = some r → r = begin none program [] :=
    fun j r hj => List.mem_singleton.1 (List.mem_of_getElem? hj)
  refine ⟨fun j hj => ?_, fun j q hj => ?_, fun j r hj k hk => ?_, fun k c q hk hc hq => ?_, fun j r hj he => ?_,
    fun j r hj hr => ?_⟩
  · obtain ⟨r, hr, -⟩ := Option.map_eq_some_iff.1 hj
    exact Nat.lt_one_iff.1 (List.getElem?_eq_some_iff.1 hr).1
  · obtain ⟨r, hr, hparent⟩ := Option.map_eq_some_iff.1 hj
    rw [honly j r hr] at hparent; cases hparent
  · rw [honly j r hj] at hk; cases hk
  · rw [honly k c hk] at hq; cases hq
  · rw [honly j r hj] at he; cases he
  · rw [honly j r hj] at hr; cases hr

/-- A parent does not exit before its children have. -/
theorem Family.parent_alive (h : Family s) (hp : s.procs[i]? = some p) (halive : p.exited = false) {q : Nat}
    (hq : p.parent = some q) : ∃ r : Process, s.procs[q]? = some r ∧ i ∈ r.kids ∧ r.exited = false := by
  have hunreaped : p.reaped = false := by
    cases hr : p.reaped with
    | true => rw [h.reaped i p hp hr] at halive; cases halive
    | false => rfl
  obtain ⟨r, hr, hmem⟩ := h.unreaped i p q hp hunreaped hq
  refine ⟨r, hr, hmem, ?_⟩
  cases he : r.exited with
  | true => rw [(h.exited q r hr he).2.2] at hmem; cases hmem
  | false => rfl

theorem Family.getppid_eq (h : Family s) (hp : s.procs[i]? = some p) (halive : p.exited = false) :
    getppid s p = p.parent := by
  unfold getppid
  cases hparent : p.parent with
  | none => rfl
  | some q =>
    obtain ⟨r, hr, -, hre⟩ := h.parent_alive hp halive hparent
    simp [hr, hre]

/-- When the root has exited, so has every process. -/
theorem Family.all_exited (h : Family s) {r : Process} (hr : s.procs[0]? = some r) (hexited : r.exited = true) :
    ∀ (i : Nat) (p : Process), s.procs[i]? = some p → p.exited = true := by
  intro i
  -- from the parent, which is older
  induction i using Nat.strong_induction_on with
  | _ i ih =>
    intro p hp
    cases halive : p.exited with
    | true => rfl
    | false =>
      cases hparent : p.parent with
      | none =>
        obtain rfl := h.root i (by rw [parentOf_of_some hp, hparent])
        rw [← Option.some.inj (hr.symm.trans hp), hexited] at halive; cases halive
      | some q =>
        obtain ⟨r', hr', -, hre⟩ := h.parent_alive hp halive hparent
        have hlt : q < i := h.older i q (by rw [parentOf_of_some hp, hparent])
        rw [ih q hlt r' hr'] at hre; cases hre

/-! ## What is shown -/

theorem parentOf_step (hstep : step buffered s i = some t) {j : Nat} {q : Option Nat} (hj : parentOf s j = some q) :
    parentOf t j = some q := by
  obtain ⟨p, hp, halive, hcalls⟩ := step_cases hstep
  rw [← hj]
  cases hcalls with
  | say hsaid line hline hb =>
    exact parentOf_set hp { p with printed := true, buffer := p.buffer ++ [line] } rfl s.out j
  | sayOut hsaid line hline hb => exact parentOf_set hp { p with printed := true } rfl (s.out ++ [line]) j
  | fork hsaid c cs hfork =>
    have hset := parentOf_set hp { p with toFork := cs, kids := p.kids ++ [s.procs.length] } rfl s.out j
    rw [parentOf_append _ _ s.out _ (by rw [hset, hj]; rfl), hset]
  | wait hsaid hfork k ks hkids q hq hexited =>
    have hik : i ≠ k := by
      rintro rfl
      rw [Option.some.inj (hp.symm.trans hq), hexited] at halive; cases halive
    have hk' : (s.procs.set i { p with kids := ks })[k]? = some q := by rw [List.getElem?_set_ne hik]; exact hq
    exact (parentOf_set (s := { s with procs := s.procs.set i { p with kids := ks } }) hk' { q with reaped := true } rfl
      s.out j).trans (parentOf_set hp { p with kids := ks } rfl s.out j)
  | exit hsaid hfork hkids =>
    exact parentOf_set hp { p with exited := true, buffer := [] } rfl (s.out ++ p.buffer) j

/-- A step adds the line of the process that takes it, or none. -/
theorem said_step (hstep : step buffered s i = some t) (hp : s.procs[i]? = some p) {l : Line} (hl : Said t l) :
    Said s l ∨ l = ⟨i, getppid s p⟩ := by
  obtain ⟨p', hp', -, hcalls⟩ := step_cases hstep
  obtain rfl := Option.some.inj (hp.symm.trans hp')
  cases hcalls with
  | say hsaid line hline hb =>
    rcases hl with hl | ⟨j, q, hj, hl⟩
    · exact .inl (.inl hl)
    · rcases getElem?_set_cases hj with ⟨rfl, rfl⟩ | ⟨-, hold⟩
      · rcases List.mem_append.1 hl with hl | hl
        · exact .inl (.inr ⟨j, p, hp, hl⟩)
        · exact .inr ((List.mem_singleton.1 hl).trans hline)
      · exact .inl (.inr ⟨j, q, hold, hl⟩)
  | sayOut hsaid line hline hb =>
    rcases hl with hl | ⟨j, q, hj, hl⟩
    · rcases List.mem_append.1 hl with hl | hl
      · exact .inl (.inl hl)
      · exact .inr ((List.mem_singleton.1 hl).trans hline)
    · rcases getElem?_set_cases hj with ⟨rfl, rfl⟩ | ⟨-, hold⟩
      · exact .inl (.inr ⟨j, p, hp, hl⟩)
      · exact .inl (.inr ⟨j, q, hold, hl⟩)
  | fork hsaid c cs hfork =>
    rcases hl with hl | ⟨j, q, hj, hl⟩
    · exact .inl (.inl hl)
    · rcases getElem?_concat_cases hj with hj | ⟨-, rfl⟩
      · rcases getElem?_set_cases hj with ⟨rfl, rfl⟩ | ⟨-, hold⟩
        · exact .inl (.inr ⟨j, p, hp, hl⟩)
        · exact .inl (.inr ⟨j, q, hold, hl⟩)
      · exact .inl (.inr ⟨i, p, hp, hl⟩)
  | wait hsaid hfork k ks hkids q hq hexited =>
    rcases hl with hl | ⟨j, r, hj, hl⟩
    · exact .inl (.inl hl)
    · rcases getElem?_set_cases hj with ⟨rfl, rfl⟩ | ⟨-, hj⟩
      · exact .inl (.inr ⟨j, q, hq, hl⟩)
      · rcases getElem?_set_cases hj with ⟨rfl, rfl⟩ | ⟨-, hold⟩
        · exact .inl (.inr ⟨j, p, hp, hl⟩)
        · exact .inl (.inr ⟨j, r, hold, hl⟩)
  | exit hsaid hfork hkids =>
    rcases hl with hl | ⟨j, q, hj, hl⟩
    · rcases List.mem_append.1 hl with hl | hl
      · exact .inl (.inl hl)
      · exact .inl (.inr ⟨i, p, hp, hl⟩)
    · rcases getElem?_set_cases hj with ⟨rfl, rfl⟩ | ⟨-, hold⟩
      · cases hl
      · exact .inl (.inr ⟨j, q, hold, hl⟩)

theorem TrueLines.step (h : TrueLines s) (hfam : Family s) (hstep : step buffered s i = some t) : TrueLines t := by
  obtain ⟨p, hp, halive, -⟩ := step_cases hstep
  intro l hl
  refine parentOf_step hstep ?_
  rcases said_step hstep hp hl with hl | rfl
  · exact h l hl
  · exact (parentOf_of_some hp).trans (congrArg some (hfam.getppid_eq hp halive).symm)

/-! ## What is left to do -/

/-- The sum of a weight over the processes. -/
def total (f : Process → Nat) (s : State) : Nat := (s.procs.map f).sum

theorem total_set (f : Process → Nat) (hp : s.procs[i]? = some p) (p' : Process) (out : List Line) :
    total f { procs := s.procs.set i p', out := out } + f p = total f s + f p' := sum_map_set f hp p'

theorem total_fork (f : Process → Nat) (hp : s.procs[i]? = some p) (p' c : Process) (out : List Line) :
    total f { procs := s.procs.set i p' ++ [c], out := out } + f p = total f s + f p' + f c := by
  have hset := sum_map_set f hp p'
  show ((s.procs.set i p' ++ [c]).map f).sum + f p = (s.procs.map f).sum + f p' + f c
  rw [List.map_append, List.sum_append, List.map_singleton, List.sum_singleton]
  omega

theorem total_wait (f : Process → Nat) (hp : s.procs[i]? = some p) (halive : p.exited = false) {k : Nat} {q : Process}
    (hq : s.procs[k]? = some q) (hexited : q.exited = true) (p' q' : Process) :
    total f { s with procs := (s.procs.set i p').set k q' } + f p + f q = total f s + f p' + f q' := by
  have hik : i ≠ k := by
    rintro rfl
    rw [Option.some.inj (hp.symm.trans hq), hexited] at halive; cases halive
  have hk' : (s.procs.set i p')[k]? = some q := by rw [List.getElem?_set_ne hik]; exact hq
  have hone := total_set f hp p' s.out
  have htwo : total f { s with procs := (s.procs.set i p').set k q' } + f q =
      total f { s with procs := s.procs.set i p' } + f q' :=
    total_set (s := { s with procs := s.procs.set i p' }) f hk' q' s.out
  omega

/-- The calls a process and what it has yet to fork have ahead of them, its waits included. -/
def callsLeft (p : Process) : Nat :=
  (if p.printed then 0 else 1) + 4 * sizes p.toFork + p.kids.length + if p.exited then 0 else 1

theorem Program.size_eq (c : Program) : c.size = 1 + sizes c.children := by
  cases c with
  | forks children => rfl

theorem callsLeft_begin (parent : Option Nat) (c : Program) (buffer : List Line) :
    callsLeft (begin parent c buffer) + 2 = 4 * c.size := by
  rw [c.size_eq]
  simp only [callsLeft, begin, List.length_nil, Bool.false_eq_true, if_false]
  omega

/-- **Every step does one of the calls that are left.** -/
theorem total_callsLeft_step (hstep : step buffered s i = some t) :
    total callsLeft t + 1 = total callsLeft s := by
  obtain ⟨p, hp, halive, hcalls⟩ := step_cases hstep
  cases hcalls with
  | say hsaid line hline hb =>
    have := total_set callsLeft hp { p with printed := true, buffer := p.buffer ++ [line] } s.out
    simp only [callsLeft, hsaid, if_true, Bool.false_eq_true, if_false] at this
    omega
  | sayOut hsaid line hline hb =>
    have := total_set callsLeft hp { p with printed := true } (s.out ++ [line])
    simp only [callsLeft, hsaid, if_true, Bool.false_eq_true, if_false] at this
    omega
  | fork hsaid c cs hfork =>
    have := total_fork callsLeft hp { p with toFork := cs, kids := p.kids ++ [s.procs.length] }
      (begin (some i) c p.buffer) s.out
    have hbegin := callsLeft_begin (some i) c p.buffer
    have hkids :
        callsLeft { p with toFork := cs, kids := p.kids ++ [s.procs.length] } + 4 * c.size = callsLeft p + 1 := by
      simp only [callsLeft, hfork, sizes, List.length_append, List.length_singleton]
      omega
    omega
  | wait hsaid hfork k ks hkids q hq hexited =>
    have := total_wait callsLeft hp halive hq hexited { p with kids := ks } { q with reaped := true }
    simp only [callsLeft, hkids, List.length_cons] at this
    omega
  | exit hsaid hfork hkids =>
    have := total_set callsLeft hp { p with exited := true, buffer := [] } (s.out ++ p.buffer)
    simp only [callsLeft, halive, if_true, Bool.false_eq_true, if_false] at this
    omega

/-- A process that has not exited. -/
def Alive (s : State) (i : Nat) : Prop := ∃ p : Process, s.procs[i]? = some p ∧ p.exited = false

theorem exists_youngest (h : ∃ i, Alive s i) : ∃ i, Alive s i ∧ ∀ j, Alive s j → j ≤ i := by
  classical
  obtain ⟨i, hi⟩ := h
  have hbound : ∀ j, Alive s j → j ≤ s.procs.length := by
    rintro j ⟨p, hp, -⟩
    exact Nat.le_of_lt (List.getElem?_eq_some_iff.1 hp).1
  exact ⟨Nat.findGreatest (Alive s) s.procs.length, Nat.findGreatest_spec (hbound i hi) hi,
    fun j hj => Nat.le_findGreatest (hbound j hj) hj⟩

/-- While a process has not exited, one can take a step: the youngest. -/
theorem Family.step_of_alive (h : Family s) (halive : ∃ i, Alive s i) :
    ∃ i t, ProcessTree.step buffered s i = some t := by
  obtain ⟨i, ⟨p, hp, hpe⟩, hlast⟩ := exists_youngest halive
  refine ⟨i, Option.isSome_iff_exists.1 ?_⟩
  rw [ProcessTree.step, hp, Option.bind_some, call, if_neg (by rw [hpe]; exact Bool.false_ne_true)]
  split
  · split <;> rfl
  · cases p.toFork with
    | cons c cs => rfl
    | nil =>
      cases hkids : p.kids with
      | nil => rfl
      | cons k ks =>
        -- its first child is younger, and has exited
        have hki := h.kids i p hp k (by rw [hkids]; exact List.mem_cons_self)
        obtain ⟨q, hq, -⟩ := Option.map_eq_some_iff.1 hki
        have hqe : q.exited = true := by
          cases hqe : q.exited with
          | true => rfl
          | false => exact absurd (hlast k ⟨q, hq, hqe⟩) (Nat.not_le.2 (h.older k i hki))
        simp [hq, hqe]

/-- A process that has exited has no call left, and one that has not has at least its exit. -/
theorem Family.callsLeft_eq_zero (h : Family s) (hp : s.procs[i]? = some p) : callsLeft p = 0 ↔ p.exited = true := by
  cases hpe : p.exited with
  | true =>
    obtain ⟨hsaid, hfork, hkids⟩ := h.exited i p hp hpe
    simp [callsLeft, hsaid, hfork, hkids, hpe, sizes]
  | false => simp [callsLeft, hpe]

theorem Family.total_callsLeft (h : Family s) : total callsLeft s = 0 ↔ ¬ ∃ i, Alive s i := by
  unfold total
  rw [List.sum_eq_zero_iff_forall_eq_nat]
  constructor
  · rintro hzero ⟨i, p, hp, hpe⟩
    have := (h.callsLeft_eq_zero hp).1 (hzero _ (List.mem_map_of_mem (List.mem_of_getElem? hp)))
    rw [hpe] at this; cases this
  · rintro hnone x hx
    obtain ⟨p, hmem, rfl⟩ := List.mem_map.1 hx
    obtain ⟨i, hp⟩ := List.mem_iff_getElem?.1 hmem
    refine (h.callsLeft_eq_zero hp).2 ?_
    cases hpe : p.exited with
    | true => rfl
    | false => exact absurd ⟨i, p, hp, hpe⟩ hnone

/-- When all have exited, every process but the root has been waited for. -/
theorem Family.all_reaped (h : Family s) (hnone : ¬ ∃ i, Alive s i) (hp : s.procs[i]? = some p) (hi : i ≠ 0) :
    p.reaped = true := by
  cases hr : p.reaped with
  | true => rfl
  | false =>
    cases hparent : p.parent with
    | none => exact absurd (h.root i (by rw [parentOf_of_some hp, hparent])) hi
    | some q =>
      obtain ⟨r, hr', hmem⟩ := h.unreaped i p q hp hr hparent
      cases hre : r.exited with
      | true => rw [(h.exited q r hr' hre).2.2] at hmem; cases hmem
      | false => exact absurd ⟨q, r, hr', hre⟩ hnone

/-! ## How many lines are shown -/

/-- Where lines go out at once, no buffer holds any. -/
def Flushed (s : State) : Prop := ∀ (i : Nat) (p : Process), s.procs[i]? = some p → p.buffer = []

theorem Flushed.step (h : Flushed s) (hstep : step false s i = some t) : Flushed t := by
  obtain ⟨p, hp, halive, hcalls⟩ := step_cases hstep
  intro j r hj
  cases hcalls with
  | say hsaid line hline hb => cases hb
  | sayOut hsaid line hline hb =>
    rcases getElem?_set_cases hj with ⟨-, rfl⟩ | ⟨-, hold⟩
    · exact h i p hp
    · exact h j r hold
  | fork hsaid c cs hfork =>
    rcases getElem?_concat_cases hj with hj | ⟨-, rfl⟩
    · rcases getElem?_set_cases hj with ⟨-, rfl⟩ | ⟨-, hold⟩
      · exact h i p hp
      · exact h j r hold
    · exact h i p hp
  | wait hsaid hfork k ks hkids q hq hexited =>
    rcases getElem?_set_cases hj with ⟨-, rfl⟩ | ⟨-, hj⟩
    · exact h k q hq
    · rcases getElem?_set_cases hj with ⟨-, rfl⟩ | ⟨-, hold⟩
      · exact h i p hp
      · exact h j r hold
  | exit hsaid hfork hkids =>
    rcases getElem?_set_cases hj with ⟨-, rfl⟩ | ⟨-, hold⟩
    · rfl
    · exact h j r hold

/-- The lines a process and what it has yet to fork are going to print. -/
def linesLeft (p : Process) : Nat := (if p.printed then 0 else 1) + sizes p.toFork

/-- The number of lines a process is going to show at its exit: its ancestors' and its own. -/
def linesHeld (p : Process) : Nat := p.buffer.length + if p.printed then 0 else 1

/-- The lines a process and what it has yet to fork are going to show, each at its exit. -/
def copiesLeft (p : Process) : Nat :=
  if p.exited then 0 else linesHeld p + depthsOf p.toFork (linesHeld p + 1)

theorem length_out_step_unbuffered (h : Flushed s) (hstep : step false s i = some t) :
    t.out.length + total linesLeft t = s.out.length + total linesLeft s := by
  obtain ⟨p, hp, halive, hcalls⟩ := step_cases hstep
  cases hcalls with
  | say hsaid line hline hb => cases hb
  | sayOut hsaid line hline hb =>
    have := total_set linesLeft hp { p with printed := true } (s.out ++ [line])
    simp only [linesLeft, hsaid, if_true, Bool.false_eq_true, if_false] at this
    rw [List.length_append, List.length_singleton]
    omega
  | fork hsaid c cs hfork =>
    have := total_fork linesLeft hp { p with toFork := cs, kids := p.kids ++ [s.procs.length] }
      (begin (some i) c p.buffer) s.out
    have hbegin : linesLeft (begin (some i) c p.buffer) = c.size := by rw [c.size_eq]; rfl
    have hrest : linesLeft { p with toFork := cs, kids := p.kids ++ [s.procs.length] } + c.size = linesLeft p := by
      simp only [linesLeft, hfork, sizes]
      omega
    show s.out.length + _ = s.out.length + _
    omega
  | wait hsaid hfork k ks hkids q hq hexited =>
    have := total_wait linesLeft hp halive hq hexited { p with kids := ks } { q with reaped := true }
    simp only [linesLeft] at this
    show s.out.length + _ = s.out.length + _
    omega
  | exit hsaid hfork hkids =>
    have := total_set linesLeft hp { p with exited := true, buffer := [] } (s.out ++ p.buffer)
    simp only [linesLeft] at this
    have hnone : (s.out ++ p.buffer).length = s.out.length := by rw [h i p hp, List.append_nil]
    show (s.out ++ p.buffer).length + _ = s.out.length + _
    omega

/-- A process and the ones it has yet to make. -/
def made (p : Process) : Nat := 1 + sizes p.toFork

theorem total_made_step (hstep : step buffered s i = some t) : total made t = total made s := by
  obtain ⟨p, hp, halive, hcalls⟩ := step_cases hstep
  cases hcalls with
  | say hsaid line hline hb =>
    have := total_set made hp { p with printed := true, buffer := p.buffer ++ [line] } s.out
    simp only [made] at this
    omega
  | sayOut hsaid line hline hb =>
    have := total_set made hp { p with printed := true } (s.out ++ [line])
    simp only [made] at this
    omega
  | fork hsaid c cs hfork =>
    have := total_fork made hp { p with toFork := cs, kids := p.kids ++ [s.procs.length] }
      (begin (some i) c p.buffer) s.out
    have hbegin : made (begin (some i) c p.buffer) = c.size := by rw [c.size_eq]; rfl
    have hrest : made { p with toFork := cs, kids := p.kids ++ [s.procs.length] } + c.size = made p := by
      simp only [made, hfork, sizes]
      omega
    omega
  | wait hsaid hfork k ks hkids q hq hexited =>
    have := total_wait made hp halive hq hexited { p with kids := ks } { q with reaped := true }
    simp only [made] at this
    omega
  | exit hsaid hfork hkids =>
    have := total_set made hp { p with exited := true, buffer := [] } (s.out ++ p.buffer)
    simp only [made] at this
    omega

theorem Program.depths_eq (c : Program) (d : Nat) : c.depths d = d + depthsOf c.children (d + 1) := by
  cases c with
  | forks children => rfl

theorem length_out_step_buffered (hstep : step true s i = some t) :
    t.out.length + total copiesLeft t = s.out.length + total copiesLeft s := by
  obtain ⟨p, hp, halive, hcalls⟩ := step_cases hstep
  cases hcalls with
  | say hsaid line hline hb =>
    have := total_set copiesLeft hp { p with printed := true, buffer := p.buffer ++ [line] } s.out
    have hsame : copiesLeft { p with printed := true, buffer := p.buffer ++ [line] } = copiesLeft p := by
      simp only [copiesLeft, linesHeld, hsaid, if_true, Bool.false_eq_true, if_false, List.length_append,
        List.length_singleton, Nat.add_zero]
    show s.out.length + _ = s.out.length + _
    omega
  | sayOut hsaid line hline hb => cases hb
  | fork hsaid c cs hfork =>
    have := total_fork copiesLeft hp { p with toFork := cs, kids := p.kids ++ [s.procs.length] }
      (begin (some i) c p.buffer) s.out
    -- the child holds what its parent has printed, and its own line
    have hbegin : copiesLeft (begin (some i) c p.buffer) = c.depths (p.buffer.length + 1) := by
      rw [c.depths_eq]; rfl
    have hrest : copiesLeft { p with toFork := cs, kids := p.kids ++ [s.procs.length] } +
        c.depths (p.buffer.length + 1) = copiesLeft p := by
      simp only [copiesLeft, linesHeld, halive, hsaid, hfork, depthsOf, if_true, Bool.false_eq_true, if_false,
        Nat.add_zero]
      omega
    show s.out.length + _ = s.out.length + _
    omega
  | wait hsaid hfork k ks hkids q hq hexited =>
    have := total_wait copiesLeft hp halive hq hexited { p with kids := ks } { q with reaped := true }
    simp only [copiesLeft, linesHeld] at this
    show s.out.length + _ = s.out.length + _
    omega
  | exit hsaid hfork hkids =>
    have := total_set copiesLeft hp { p with exited := true, buffer := [] } (s.out ++ p.buffer)
    have hnone : copiesLeft { p with exited := true, buffer := [] } = 0 := rfl
    have hheld : copiesLeft p = p.buffer.length := by simp [copiesLeft, linesHeld, halive, hsaid, hfork, depthsOf]
    show (s.out ++ p.buffer).length + _ = s.out.length + _
    rw [List.length_append]
    omega

/-! ## Runs -/

variable {program : Program} {es : List Nat}

theorem family_run (hrun : run (step buffered) (start program) es = some s) : Family s :=
  Run.run_inv (fun _ _ _ h hstep => h.step hstep) (family_start program) hrun

theorem trueLines_run (hrun : run (step buffered) (start program) es = some s) : TrueLines s := by
  have hstart : TrueLines (start program) := by
    rintro l (hl | ⟨j, r, hj, hl⟩)
    · cases hl
    · rw [List.mem_singleton.1 (List.mem_of_getElem? hj)] at hl; cases hl
  have hstep : ∀ u i v, Family u ∧ TrueLines u → step buffered u i = some v → Family v ∧ TrueLines v :=
    fun _ _ _ h hstep => ⟨h.1.step hstep, h.2.step h.1 hstep⟩
  exact (Run.run_inv hstep ⟨family_start program, hstart⟩ hrun).2

/-- **Every run is finite**: so many calls have been done, and so many are left. -/
theorem length_run (hrun : run (step buffered) (start program) es = some s) :
    es.length + total callsLeft s + 2 = 4 * program.size := by
  have hstart : total callsLeft (start program) + 2 = 4 * program.size := callsLeft_begin none program []
  have hgen : ∀ (es : List Nat) (s t : State), run (step buffered) s es = some t →
      es.length + total callsLeft t = total callsLeft s := by
    intro es
    induction es with
    | nil =>
      rintro s t h
      rw [Run.run_nil, Option.some.injEq] at h
      rw [h, List.length_nil, Nat.zero_add]
    | cons i es ih =>
      rintro s t h
      obtain ⟨m, hm, ht⟩ := Option.bind_eq_some_iff.1 h
      rw [List.length_cons, ← total_callsLeft_step hm, ← ih m t ht]
      omega
  rw [hgen es _ s hrun, hstart]

theorem total_made_run (hrun : run (step buffered) (start program) es = some s) : total made s = program.size := by
  rw [Run.run_const (fun _ _ _ _ _ => trivial) (fun _ _ _ _ hstep => total_made_step hstep) trivial hrun,
    program.size_eq]
  rfl

/-- A weight that is 0 in every process that has exited is 0 in all when all have. -/
theorem Family.total_eq_of_exited (h : Family s) (hnone : ¬ ∃ i, Alive s i) {f : Process → Nat} {n : Nat}
    (hf : ∀ p : Process, p.exited = true → p.printed = true → p.toFork = [] → f p = n) :
    total f s = n * s.procs.length := by
  have hall : ∀ x ∈ s.procs.map f, x = n := by
    intro x hx
    obtain ⟨p, hmem, rfl⟩ := List.mem_map.1 hx
    obtain ⟨i, hp⟩ := List.mem_iff_getElem?.1 hmem
    have hpe : p.exited = true := by
      cases hpe : p.exited with
      | true => rfl
      | false => exact absurd ⟨i, p, hp, hpe⟩ hnone
    exact hf p hpe (h.exited i p hp hpe).1 (h.exited i p hp hpe).2.1
  rw [total, List.eq_replicate_of_mem hall, List.sum_replicate_nat, List.length_map, Nat.mul_comm]

theorem length_out_unbuffered (hrun : run (step false) (start program) es = some s) :
    s.out.length + total linesLeft s = program.size := by
  have hstart : Flushed (start program) := by
    intro j r hj
    rw [List.mem_singleton.1 (List.mem_of_getElem? hj)]; rfl
  have hconst : s.out.length + total linesLeft s = 0 + total linesLeft (start program) :=
    Run.run_const (fun _ _ _ h hstep => h.step hstep) (fun _ _ _ h hstep => length_out_step_unbuffered h hstep)
      hstart hrun
  rw [hconst, program.size_eq]
  exact Nat.zero_add _

theorem length_out_buffered (hrun : run (step true) (start program) es = some s) :
    s.out.length + total copiesLeft s = program.depths 1 := by
  have hconst : s.out.length + total copiesLeft s = 0 + total copiesLeft (start program) :=
    Run.run_const (fun _ _ _ _ _ => trivial) (fun _ _ _ _ hstep => length_out_step_buffered hstep) trivial hrun
  rw [hconst, program.depths_eq]
  exact Nat.zero_add _

end ProcessTree
end Eltex
