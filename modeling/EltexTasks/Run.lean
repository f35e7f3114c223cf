import Mathlib.Data.List.Infix
/-!
# Run — runs of a partial step

A system is a step `σ → ε → Option σ`: the state an event leads to, `none` where the event cannot happen.  An
invariant is proved of one step and carried to every run (`run_inv`, `run_inv_events`), to the runs whose events all
meet a condition (`always_of_steps`), and, where the condition is exact, to an equivalence between the two
(`always_iff_steps`).  A relation to the states of another system is proved of one step and carried to what is seen of
a run (`run_trace`).
-/
namespace Eltex
namespace Run

variable {σ ε : Type} {step : σ → ε → Option σ}

/-- The state the events `es` lead to from `s`, taken one after another. -/
def run (step : σ → ε → Option σ) (s : σ) (es : List ε) : Option σ := es.foldlM step s

/-- **`P` holds in every state the run passes through**, its two ends included. -/
def Always (step : σ → ε → Option σ) (P : σ → Prop) (s : σ) (es : List ε) : Prop :=
  ∀ pre t, pre <+: es → run step s pre = some t → P t

/-- **Every event of the run meets `ok`**, read in the state it comes in. -/
def Steps (step : σ → ε → Option σ) (ok : σ → ε → Prop) (s : σ) (es : List ε) : Prop :=
  ∀ pre e t, pre ++ [e] <+: es → run step s pre = some t → ok t e

@[simp] theorem run_nil (s : σ) : run step s [] = some s := rfl

@[simp] theorem run_cons (s : σ) (e : ε) (es : List ε) : run step s (e :: es) = (step s e).bind (run step · es) := rfl

theorem run_append (s : σ) (es fs : List ε) : run step s (es ++ fs) = (run step s es).bind (run step · fs) := by
  unfold run; rw [List.foldlM_append]; rfl

theorem run_concat (s : σ) (es : List ε) (e : ε) : run step s (es ++ [e]) = (run step s es).bind (step · e) := by
  rw [run_append]
  congr 1; funext t
  rw [run_cons]
  cases step t e <;> rfl

theorem Steps.of_prefix {ok : σ → ε → Prop} {s : σ} {es pre : List ε} (hp : pre <+: es) (h : Steps step ok s es) :
    Steps step ok s pre :=
  fun pre' e t hpre hrun => h pre' e t (hpre.trans hp) hrun

theorem steps_nil {ok : σ → ε → Prop} {s : σ} : Steps step ok s [] := by
  intro pre e t hpre _
  exact absurd (List.prefix_nil.1 hpre) (by simp)

theorem steps_cons {ok : σ → ε → Prop} {s : σ} {e : ε} {es : List ε} :
    Steps step ok s (e :: es) ↔ ok s e ∧ ∀ m ∈ step s e, Steps step ok m es := by
  constructor
  · intro h
    refine ⟨h [] e s (List.cons_prefix_cons.2 ⟨rfl, List.nil_prefix⟩) rfl, fun m hm pre e' t hpre hrun => ?_⟩
    refine h (e :: pre) e' t ?_ ?_
    · rw [List.cons_append]; exact List.cons_prefix_cons.2 ⟨rfl, hpre⟩
    · rw [run_cons, Option.mem_def.1 hm]; exact hrun
  · rintro ⟨hok, hrest⟩ pre e' t hpre hrun
    cases pre with
    | nil =>
      obtain rfl : e' = e := (List.cons_prefix_cons.1 hpre).1
      obtain rfl : s = t := by simpa using hrun
      exact hok
    | cons x pre =>
      obtain ⟨rfl, hpre'⟩ := List.cons_prefix_cons.1 hpre
      rw [run_cons] at hrun
      obtain ⟨m, hm, ht⟩ := Option.bind_eq_some_iff.1 hrun
      exact hrest m hm pre e' t hpre' ht

theorem Steps.head {ok : σ → ε → Prop} {s : σ} {e : ε} {es : List ε} (h : Steps step ok s (e :: es)) : ok s e :=
  (steps_cons.1 h).1

theorem Steps.tail {ok : σ → ε → Prop} {s m : σ} {e : ε} {es : List ε} (h : Steps step ok s (e :: es))
    (hm : step s e = some m) : Steps step ok m es :=
  (steps_cons.1 h).2 m hm

def decideSteps (ok : σ → ε → Prop) [∀ s e, Decidable (ok s e)] : ∀ (es : List ε) (s : σ), Decidable (Steps step ok s es)
  | [], _ => isTrue steps_nil
  | e :: es, s =>
    match hm : step s e with
    | none => decidable_of_iff (ok s e) (by rw [steps_cons, hm]; simp)
    | some m =>
      have : Decidable (Steps step ok m es) := decideSteps ok es m
      decidable_of_iff (ok s e ∧ Steps step ok m es) (by rw [steps_cons, hm]; simp)

instance (ok : σ → ε → Prop) [∀ s e, Decidable (ok s e)] (s : σ) (es : List ε) : Decidable (Steps step ok s es) :=
  decideSteps ok es s

/-- **The invariant rule**: what every step that meets `ok` preserves holds at the end of every run of such steps. -/
theorem run_inv_of_steps {Inv : σ → Prop} {ok : σ → ε → Prop}
    (hstep : ∀ s e t, Inv s → ok s e → step s e = some t → Inv t) :
    ∀ (es : List ε) (s t : σ), Inv s → Steps step ok s es → run step s es = some t → Inv t
  | [], s, t, h0, _, h => by
    rw [run_nil, Option.some.injEq] at h
    exact h ▸ h0
  | e :: es, s, t, h0, hok, h => by
    rw [run_cons] at h
    obtain ⟨m, hm, ht⟩ := Option.bind_eq_some_iff.1 h
    exact run_inv_of_steps hstep es m t (hstep s e m h0 hok.head hm) (hok.tail hm) ht

/-- The invariant rule for what every step preserves. -/
theorem run_inv {Inv : σ → Prop} (hstep : ∀ s e t, Inv s → step s e = some t → Inv t) {es : List ε} {s t : σ}
    (h0 : Inv s) (h : run step s es = some t) : Inv t :=
  run_inv_of_steps (fun s e t hs _ he => hstep s e t hs he) es s t h0 (fun _ _ _ _ _ => trivial) h

/-- The invariant rule for what is said of a state and the events that have led to it. -/
theorem run_inv_events {Inv : List ε → σ → Prop} {s : σ}
    (hstep : ∀ es t e u, Inv es t → step t e = some u → Inv (es ++ [e]) u) (h0 : Inv [] s) {es : List ε} {t : σ}
    (h : run step s es = some t) : Inv es t := by
  induction es using List.reverseRecOn generalizing t with
  | nil =>
    rw [run_nil, Option.some.injEq] at h
    exact h ▸ h0
  | append_singleton es e ih =>
    rw [run_concat] at h
    obtain ⟨u, hu, ht⟩ := Option.bind_eq_some_iff.1 h
    exact hstep es u e t (ih hu) ht

/-- What no step changes is at the end of a run what it was. -/
theorem run_const {α : Type} {Inv : σ → Prop} {f : σ → α} (hinv : ∀ s e t, Inv s → step s e = some t → Inv t)
    (hf : ∀ s e t, Inv s → step s e = some t → f t = f s) {es : List ε} {s t : σ} (h0 : Inv s)
    (h : run step s es = some t) : f t = f s := by
  have hstep : ∀ u e v, Inv u ∧ f u = f s → step u e = some v → Inv v ∧ f v = f s := fun u e v hu hv =>
    ⟨hinv u e v hu.1 hv, (hf u e v hu.1 hv).trans hu.2⟩
  exact (run_inv hstep ⟨h0, rfl⟩ h).2

/-- **A condition on the steps keeps `P` along the whole run.** -/
theorem always_of_steps {Inv P : σ → Prop} {ok : σ → ε → Prop}
    (hstep : ∀ s e t, Inv s → ok s e → step s e = some t → Inv t) (hP : ∀ s, Inv s → P s)
    {s : σ} {es : List ε} (h0 : Inv s) (hok : Steps step ok s es) : Always step P s es :=
  fun pre t hpre hrun => hP t (run_inv_of_steps hstep pre s t h0 (hok.of_prefix hpre) hrun)

/-- **An exact condition**: where a step that meets `ok` keeps the invariant and one that does not meet it can be taken
and loses `P`, the runs along which `P` holds throughout are those whose events all meet `ok`. -/
theorem always_iff_steps_of_possible (Inv : σ → Prop) {P : σ → Prop} {ok possible : σ → ε → Prop}
    (hstep : ∀ s e t, Inv s → ok s e → step s e = some t → Inv t) (hP : ∀ s, Inv s → P s)
    (hbad : ∀ s e, Inv s → possible s e → ¬ ok s e → ∃ t, step s e = some t ∧ ¬ P t)
    {s : σ} {es : List ε} (h0 : Inv s) (hpossible : Steps step possible s es) :
    Always step P s es ↔ Steps step ok s es := by
  refine ⟨fun hall => ?_, always_of_steps hstep hP h0⟩
  induction es generalizing s with
  | nil => exact steps_nil
  | cons e es ih =>
    have hfirst : ∀ m, step s e = some m → P m := fun m hm =>
      hall [e] m (List.cons_prefix_cons.2 ⟨rfl, List.nil_prefix⟩) (by rw [run_cons, hm]; rfl)
    -- the first event meets the condition, or the state after it would refute `P`
    have hok : ok s e := by
      by_contra hno
      obtain ⟨m, hm, hbadm⟩ := hbad s e h0 hpossible.head hno
      exact hbadm (hfirst m hm)
    refine steps_cons.2 ⟨hok, fun m hm => ?_⟩
    exact ih (hstep s e m h0 hok hm) (hpossible.tail hm) fun pre t hpre ht =>
      hall (e :: pre) t (List.cons_prefix_cons.2 ⟨rfl, hpre⟩) (by rw [run_cons, Option.mem_def.1 hm]; exact ht)

theorem steps_isSome_of_run {s u : σ} {es : List ε} (hrun : run step s es = some u) :
    Steps step (fun s e => (step s e).isSome) s es := by
  rintro pre e t ⟨post, rfl⟩ hpre
  rw [run_append, run_concat, hpre, Option.bind_some] at hrun
  obtain ⟨m, hm, -⟩ := Option.bind_eq_some_iff.1 hrun
  rw [hm]; rfl

/-- The rule for a run that is known to end. -/
theorem always_iff_steps (Inv : σ → Prop) {P : σ → Prop} {ok : σ → ε → Prop}
    (hstep : ∀ s e t, Inv s → ok s e → step s e = some t → Inv t) (hP : ∀ s, Inv s → P s)
    (hbad : ∀ s e t, Inv s → ¬ ok s e → step s e = some t → ¬ P t)
    {s u : σ} {es : List ε} (h0 : Inv s) (hrun : run step s es = some u) :
    Always step P s es ↔ Steps step ok s es := by
  refine always_iff_steps_of_possible Inv hstep hP (fun s e h hpossible hno => ?_) h0 (steps_isSome_of_run hrun)
  obtain ⟨t, ht⟩ := Option.isSome_iff_exists.1 hpossible
  exact ⟨t, ht, hbad s e t h hno ht⟩

theorem run_defined_of_steps {Inv : σ → Prop} {ok possible : σ → ε → Prop}
    (hstep : ∀ s e, Inv s → possible s e → ok s e → ∃ t, step s e = some t ∧ Inv t) :
    ∀ (es : List ε) (s : σ), Inv s → Steps step possible s es → Steps step ok s es → ∃ t, run step s es = some t
  | [], s, _, _, _ => ⟨s, rfl⟩
  | e :: es, s, h0, hpossible, hok => by
    obtain ⟨m, hm, hinv⟩ := hstep s e h0 hpossible.head hok.head
    rw [run_cons, hm]
    exact run_defined_of_steps hstep es m hinv (hpossible.tail hm) (hok.tail hm)

/-- **A condition that decides at the end**: where a step leads to a good state exactly from a good one and with an
event that meets `ok`, a run ends in a good state exactly when its events all meet `ok`. -/
theorem good_iff_steps {Inv Good : σ → Prop} {ok : σ → ε → Prop} (hinv : ∀ s e t, Inv s → step s e = some t → Inv t)
    (hstep : ∀ s e t, Inv s → step s e = some t → (Good t ↔ Good s ∧ ok s e)) :
    ∀ (es : List ε) (s t : σ), Inv s → run step s es = some t → (Good t ↔ Good s ∧ Steps step ok s es)
  | [], s, t, _, h => by
    rw [run_nil, Option.some.injEq] at h
    subst h
    exact ⟨fun hs => ⟨hs, steps_nil⟩, And.left⟩
  | e :: es, s, t, h0, h => by
    rw [run_cons] at h
    obtain ⟨m, hm, ht⟩ := Option.bind_eq_some_iff.1 h
    have ih := good_iff_steps hinv hstep es m t (hinv s e m h0 hm) ht
    have htail : (∀ m' ∈ step s e, Steps step ok m' es) ↔ Steps step ok m es := by simp [hm]
    rw [ih, hstep s e m h0 hm, steps_cons, htail, and_assoc]

section Observed

variable {γ : Type} {note : σ → ε → γ → γ}

/-- The step with a record of what has happened beside the state: the record never decides what the step does. -/
def observed (step : σ → ε → Option σ) (note : σ → ε → γ → γ) (p : σ × γ) (e : ε) : Option (σ × γ) :=
  (step p.1 e).map fun t => (t, note p.1 e p.2)

theorem run_observed : ∀ (es : List ε) (s : σ) (g : γ),
    (run (observed step note) (s, g) es).map Prod.fst = run step s es
  | [], s, g => rfl
  | e :: es, s, g => by
    rw [run_cons, run_cons]
    cases hs : step s e with
    | none => simp [observed, hs]
    | some t => simpa [observed, hs] using run_observed es t (note s e g)

/-- A condition on the state and the event does not read the record. -/
theorem steps_observed {ok : σ → ε → Prop} {s : σ} {g : γ} {es : List ε} :
    Steps (observed step note) (fun p e => ok p.1 e) (s, g) es ↔ Steps step ok s es := by
  constructor
  · intro h pre e t hpre hrun
    rw [← run_observed pre s g] at hrun
    obtain ⟨p, hp, rfl⟩ := Option.map_eq_some_iff.1 hrun
    exact h pre e p hpre hp
  · intro h pre e p hpre hrun
    apply h pre e p.1 hpre
    rw [← run_observed pre s g, hrun]
    rfl

end Observed

/-! ## What can be seen of a run -/

section Trace

variable {α ω : Type} {obs : σ → ε → List ω} {spec : α → ω → Option α}

/-- What can be seen of the events `es`, taken from `s` on. -/
def trace (step : σ → ε → Option σ) (obs : σ → ε → List ω) : σ → List ε → List ω
  | _, [] => []
  | s, e :: es =>
    obs s e ++ match step s e with
      | none => []
      | some t => trace step obs t es

theorem trace_cons {s m : σ} {e : ε} {es : List ε} (hm : step s e = some m) :
    trace step obs s (e :: es) = obs s e ++ trace step obs m es := by
  rw [trace, hm]

/-- **Forward simulation**: where every step can be followed by `spec` with what is seen of it, what is seen of a run is
a run of `spec`, and the relation holds at its end. -/
theorem run_trace {R : σ → α → Prop} {ok : σ → ε → Prop}
    (hsim : ∀ s a e t, R s a → ok s e → step s e = some t → ∃ b, run spec a (obs s e) = some b ∧ R t b) :
    ∀ (es : List ε) (s t : σ) (a : α), R s a → Steps step ok s es → run step s es = some t →
      ∃ b, run spec a (trace step obs s es) = some b ∧ R t b
  | [], s, t, a, h0, _, h => by
    rw [run_nil, Option.some.injEq] at h
    exact ⟨a, rfl, h ▸ h0⟩
  | e :: es, s, t, a, h0, hok, h => by
    rw [run_cons] at h
    obtain ⟨m, hm, ht⟩ := Option.bind_eq_some_iff.1 h
    obtain ⟨b, hb, hR⟩ := hsim s a e m h0 hok.head hm
    obtain ⟨c, hc, hRt⟩ := run_trace hsim es m t b hR (hok.tail hm) ht
    refine ⟨c, ?_, hRt⟩
    rw [trace_cons hm, run_append, hb, Option.bind_some, hc]

end Trace

end Run
end Eltex
