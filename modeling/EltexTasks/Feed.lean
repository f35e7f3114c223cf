import EltexTasks.Run
/-!
# Feed — a log that many read (a library)

What a broadcast is for: messages go to the end of one log, and whoever subscribes is given the messages from then on,
one after another.  What a subscriber has been given is a piece of the log from its subscription on
(`Feed.pieces_of_run`), so two subscribers never disagree about the order or about what comes between two messages
(`Feed.Pieces.agree`).
-/
namespace Eltex

/-- A subscriber: the length of the log at its subscription, and what it has been given. -/
structure Subscriber (α : Type) where
  start : Nat
  given : List α
deriving DecidableEq, Repr

structure Feed (α : Type) where
  log : List α
  subscribers : List (Subscriber α)
deriving DecidableEq, Repr

namespace Feed

open Run (run)

variable {α : Type}

def empty : Feed α := { log := [], subscribers := [] }

/-- A message goes to the log; somebody subscribes; subscriber `i` is given `a`. -/
inductive Event (α : Type) where
  | publish (a : α)
  | subscribe
  | give (i : Nat) (a : α)
deriving DecidableEq, Repr

/-- The message that subscriber `s` is to be given next. -/
def next (f : Feed α) (s : Subscriber α) : Option α := f.log[s.start + s.given.length]?

def step [DecidableEq α] (f : Feed α) : Event α → Option (Feed α)
  | .publish a => some { f with log := f.log ++ [a] }
  | .subscribe => some { f with subscribers := f.subscribers ++ [⟨f.log.length, []⟩] }
  | .give i a =>
    match f.subscribers[i]? with
    | none => none
    | some s =>
      if f.next s = some a then
        some { f with subscribers := f.subscribers.set i { s with given := s.given ++ [a] } }
      else none

/-- The subscriber has been given everything since its subscription. -/
def Complete (log : List α) (s : Subscriber α) : Prop := s.start ≤ log.length ∧ s.given = log.drop s.start

/-- **What a subscriber has been given is a piece of the log**, from its subscription on. -/
def Pieces (f : Feed α) : Prop := ∀ s ∈ f.subscribers, s.start ≤ f.log.length ∧ s.given <+: f.log.drop s.start

theorem drop_prefix_drop {xs ys : List α} (h : xs <+: ys) {n : Nat} (hn : n ≤ xs.length) : xs.drop n <+: ys.drop n := by
  obtain ⟨rest, rfl⟩ := h
  rw [List.drop_append_of_le_length hn]
  exact List.prefix_append _ _

/-- A piece with the message after it is a piece. -/
theorem prefix_next {f : Feed α} {s : Subscriber α} {a : α} (h : s.given <+: f.log.drop s.start)
    (hnext : f.next s = some a) : s.given ++ [a] <+: f.log.drop s.start := by
  obtain ⟨rest, hrest⟩ := h
  have hhead : rest.head? = some a := by
    rw [next, ← List.getElem?_drop, ← hrest, List.getElem?_append_right (Nat.le_refl _), Nat.sub_self] at hnext
    rw [List.head?_eq_getElem?, hnext]
  obtain ⟨tail, rfl⟩ := List.head?_eq_some_iff.1 hhead
  refine ⟨tail, ?_⟩
  rw [← hrest, List.append_assoc, List.singleton_append]

theorem Pieces.step [DecidableEq α] {f g : Feed α} {e : Event α} (h : Pieces f) (hg : Feed.step f e = some g) :
    Pieces g := by
  cases e with
  | publish a =>
    obtain rfl := Option.some.inj hg
    intro s hs
    obtain ⟨hstart, hgiven⟩ := h s hs
    refine ⟨?_, hgiven.trans (drop_prefix_drop (List.prefix_append _ _) hstart)⟩
    rw [List.length_append]
    exact Nat.le_add_right_of_le hstart
  | subscribe =>
    obtain rfl := Option.some.inj hg
    intro s hs
    rcases List.mem_append.1 hs with hs | hs
    · exact h s hs
    · rw [List.mem_singleton.1 hs]
      exact ⟨Nat.le_refl _, List.nil_prefix⟩
  | give i a =>
    simp only [Feed.step] at hg
    split at hg
    case h_1 => cases hg
    case h_2 s hs =>
      split at hg
      case isFalse => cases hg
      case isTrue hnext =>
        obtain rfl := Option.some.inj hg
        intro s' hs'
        rcases List.mem_or_eq_of_mem_set hs' with hs' | rfl
        · exact h s' hs'
        · obtain ⟨hstart, hgiven⟩ := h s (List.mem_of_getElem? hs)
          exact ⟨hstart, prefix_next hgiven hnext⟩

theorem pieces_of_run [DecidableEq α] {es : List (Event α)} {f : Feed α} (h : run Feed.step empty es = some f) :
    Pieces f :=
  Run.run_inv (fun _ _ _ h hs => Pieces.step h hs) (fun _ hs => absurd hs List.not_mem_nil) h

/-- **Two subscribers agree**: from the later subscription on, what one of them has been given begins what the other
has. -/
theorem Pieces.agree {f : Feed α} (h : Pieces f) {s t : Subscriber α} (hs : s ∈ f.subscribers)
    (ht : t ∈ f.subscribers) (hst : s.start ≤ t.start) :
    s.given.drop (t.start - s.start) <+: t.given ∨ t.given <+: s.given.drop (t.start - s.start) := by
  obtain ⟨-, hsgiven⟩ := h s hs
  obtain ⟨-, htgiven⟩ := h t ht
  rcases Nat.le_total (t.start - s.start) s.given.length with hle | hge
  · have hpiece := drop_prefix_drop hsgiven hle
    rw [List.drop_drop, Nat.add_sub_cancel' hst] at hpiece
    exact List.prefix_or_prefix_of_prefix hpiece htgiven
  · rw [List.drop_eq_nil_of_le hge]
    exact .inl List.nil_prefix

/-! ## How much is published -/

/-- The messages published. -/
def published (es : List (Event α)) : List α :=
  es.filterMap fun
    | .publish a => some a
    | _ => none

theorem published_append (es fs : List (Event α)) : published (es ++ fs) = published es ++ published fs :=
  List.filterMap_append

theorem log_of_step [DecidableEq α] {f g : Feed α} {e : Event α} (h : Feed.step f e = some g) :
    g.log = f.log ++ published [e] := by
  cases e with
  | publish a =>
    obtain rfl := Option.some.inj h
    rfl
  | subscribe =>
    obtain rfl := Option.some.inj h
    exact (List.append_nil _).symm
  | give i a =>
    simp only [Feed.step] at h
    split at h
    case h_1 => cases h
    case h_2 s hs =>
      split at h
      case isFalse => cases h
      case isTrue =>
        obtain rfl := Option.some.inj h
        exact (List.append_nil _).symm

/-- **The log is what has been published.** -/
theorem log_of_run [DecidableEq α] : ∀ {es : List (Event α)} {f g : Feed α}, run Feed.step f es = some g →
    g.log = f.log ++ published es
  | [], f, g, h => by
    obtain rfl := Option.some.inj h
    exact (List.append_nil _).symm
  | e :: es, f, g, h => by
    rw [Run.run_cons] at h
    obtain ⟨m, hm, hg⟩ := Option.bind_eq_some_iff.1 h
    rw [log_of_run hg, log_of_step hm, List.append_assoc, ← published_append]
    rfl

/-- Every message published takes one of `n`. -/
def spend (n : Nat) : Event α → Option Nat
  | .publish _ => if n = 0 then none else some (n - 1)
  | _ => some n

@[simp] theorem spend_subscribe (n : Nat) : spend n (.subscribe : Event α) = some n := rfl

@[simp] theorem spend_give (n i : Nat) (a : α) : spend n (.give i a) = some n := rfl

theorem length_published {es : List (Event α)} : ∀ {n m : Nat}, run spend n es = some m →
    (published es).length + m = n := by
  induction es with
  | nil =>
    intro n m h
    obtain rfl := Option.some.inj h
    exact Nat.zero_add _
  | cons e es ih =>
    intro n m h
    rw [Run.run_cons] at h
    cases e with
    | publish a =>
      cases n with
      | zero => cases h
      | succ n =>
        have hrest := ih (n := n) h
        show (published es).length + 1 + m = n + 1
        omega
    | subscribe => exact ih (n := n) h
    | give i a => exact ih (n := n) h

end Feed
end Eltex
