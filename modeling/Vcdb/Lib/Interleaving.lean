import Mathlib.Algebra.BigOperators.Ring.Finset
import Mathlib.Algebra.Order.BigOperators.Group.Finset
import Mathlib.Data.Fintype.Basic
import Mathlib.Data.Set.Card
import Mathlib.Tactic.Common

/-!
# Interleaved threads

Any number of threads take steps in any order.  What the threads count for is summed over all of
them, and a step changes the state of one.
-/

namespace Interleaving

section Counting

variable {Thread α : Type*} [Fintype Thread] {threads : Thread → α}

/-- What the states of all threads count for. -/
def total (weight : α → Nat) (threads : Thread → α) : Nat :=
  Finset.univ.sum fun thread => weight (threads thread)

theorem le_total (weight : α → Nat) (threads : Thread → α) (thread : Thread) :
    weight (threads thread) ≤ total weight threads :=
  Finset.single_le_sum (f := fun thread => weight (threads thread))
    (fun _ _ => Nat.zero_le _) (Finset.mem_univ thread)

theorem total_eq_zero {weight : α → Nat} :
    total weight threads = 0 ↔ ∀ thread, weight (threads thread) = 0 := by
  simp [total]

theorem total_le_total {weight other : α → Nat}
    (below : ∀ thread, weight (threads thread) ≤ other (threads thread)) :
    total weight threads ≤ total other threads :=
  Finset.sum_le_sum fun thread _ => below thread

theorem total_congr {weight other : α → Nat}
    (same : ∀ thread, weight (threads thread) = other (threads thread)) :
    total weight threads = total other threads :=
  Finset.sum_congr rfl fun thread _ => same thread

theorem total_add (weight other : α → Nat) (threads : Thread → α) :
    total (fun state => weight state + other state) threads =
      total weight threads + total other threads :=
  Finset.sum_add_distrib

theorem total_pos {weight : α → Nat} :
    0 < total weight threads ↔ ∃ thread, 0 < weight (threads thread) := by
  simp [Nat.pos_iff_ne_zero, total_eq_zero]

/-- What counts for one in each thread of a set counts for as many as there are. -/
theorem total_eq_ncard {weight : α → Nat} {p : Thread → Prop}
    (one : ∀ thread, p thread → weight (threads thread) = 1)
    (zero : ∀ thread, ¬p thread → weight (threads thread) = 0) :
    total weight threads = Set.ncard {thread | p thread} := by
  classical
  have indicator : ∀ thread, weight (threads thread) = if p thread then 1 else 0 := by
    intro thread
    split_ifs with here
    · exact one thread here
    · exact zero thread here
  rw [total, Finset.sum_congr rfl fun thread _ => indicator thread, Finset.sum_boole,
    Set.ncard_eq_toFinset_card', Set.toFinset_ofPred]
  rfl

variable [DecidableEq Thread]

/-- One thread moves on. -/
theorem total_update (weight : α → Nat) (threads : Thread → α) (thread : Thread) (next : α) :
    total weight (Function.update threads thread next) + weight (threads thread) =
      total weight threads + weight next := by
  have split : ∀ states : Thread → α, total weight states = weight (states thread) +
      (Finset.univ.erase thread).sum fun other => weight (states other) := fun states =>
    (Finset.add_sum_erase _ _ (Finset.mem_univ thread)).symm
  have others : ((Finset.univ.erase thread).sum fun other =>
      weight (Function.update threads thread next other)) =
        (Finset.univ.erase thread).sum fun other => weight (threads other) := by
    refine Finset.sum_congr rfl fun other mem => ?_
    rw [Function.update_of_ne (Finset.ne_of_mem_erase mem)]
  rw [split, split threads, others, Function.update_self]
  omega

/-- Two threads that count are one when all of them count for one at most. -/
theorem eq_of_total_le_one {weight : α → Nat} (one : total weight threads ≤ 1)
    {first second : Thread} (counts : 0 < weight (threads first))
    (too : 0 < weight (threads second)) : first = second := by
  by_contra different
  have pair := Finset.sum_le_sum_of_subset (f := fun thread => weight (threads thread))
    (Finset.subset_univ {first, second})
  rw [Finset.sum_pair different] at pair
  have : weight (threads first) + weight (threads second) ≤ total weight threads := pair
  omega

end Counting

section Running

variable {State Thread Event : Type*}

/-- The states reached when any threads take steps in any order that a rule allows. -/
inductive Reached (step : State → Thread → Event → Option State)
    (rule : State → Thread → Event → Prop) (initial : State) : State → Prop
  | initial : Reached step rule initial initial
  | next {state after : State} {thread : Thread} {event : Event}
      (reached : Reached step rule initial state) (allowed : rule state thread event)
      (moved : step state thread event = some after) : Reached step rule initial after

variable {step : State → Thread → Event → Option State} {rule : State → Thread → Event → Prop}
  {initial : State}

/-- What holds at first and is kept by every step holds of every state reached. -/
theorem Reached.invariant (holds : State → Prop) (first : holds initial)
    (kept : ∀ state thread event after, holds state → rule state thread event →
      step state thread event = some after → holds after) {state : State}
    (reached : Reached step rule initial state) : holds state := by
  induction reached with
  | initial => exact first
  | next _ allowed moved ih => exact kept _ _ _ _ ih allowed moved

theorem Reached.weaken {other : State → Thread → Event → Prop}
    (weaker : ∀ state thread event, rule state thread event → other state thread event)
    {state : State} (reached : Reached step rule initial state) :
    Reached step other initial state := by
  induction reached with
  | initial => exact .initial
  | next _ allowed moved ih => exact .next ih (weaker _ _ _ allowed) moved

/-- A schedule: the steps taken one after another. -/
def runSchedule (step : State → Thread → Event → Option State) :
    List (Thread × Event) → State → Option State
  | [], state => some state
  | (thread, event) :: schedule, state => (step state thread event).bind (runSchedule step schedule)

theorem reached_of_runSchedule {schedule : List (Thread × Event)} {state after : State}
    (reached : Reached step (fun _ _ _ => True) initial state)
    (ran : runSchedule step schedule state = some after) :
    Reached step (fun _ _ _ => True) initial after := by
  induction schedule generalizing state with
  | nil =>
      cases ran
      exact reached
  | cons entry schedule ih =>
      obtain ⟨next, moved, rest⟩ := Option.bind_eq_some_iff.mp ran
      exact ih (.next reached trivial moved) rest

end Running

end Interleaving
