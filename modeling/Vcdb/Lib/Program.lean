/-!
# Programs over a signature of operations

A program is a tree of operation calls.  A handler gives each operation a meaning on a state, and
`eval` runs a whole program against it; the same program can be run by different handlers, or one
call at a time between the calls of other programs.
-/

/-- Operations a program may call, with the type of their answers. -/
structure Signature where
  /-- Operation names together with their arguments. -/
  Op : Type
  /-- Answer delivered to the caller. -/
  Answer : Op → Type

/-- A computation that calls operations and ends in a value. -/
inductive Program (sig : Signature) (α : Type) where
  | done (value : α)
  | call (op : sig.Op) (next : sig.Answer op → Program sig α)

namespace Program

variable {sig : Signature} {α β γ σ : Type}

/-- Sequential composition. -/
protected def bind : Program sig α → (α → Program sig β) → Program sig β
  | done value, rest => rest value
  | call op next, rest => call op fun answer => (next answer).bind rest

instance : Monad (Program sig) where
  pure := done
  bind := Program.bind

/-- Call one operation and return its answer. -/
def perform (op : sig.Op) : Program sig (sig.Answer op) := call op done

@[simp]
theorem done_bind (value : α) (rest : α → Program sig β) :
    (done value >>= rest : Program sig β) = rest value := rfl

@[simp]
theorem pure_eq_done (value : α) : (pure value : Program sig α) = done value := rfl

@[simp]
theorem call_bind (op : sig.Op) (next : sig.Answer op → Program sig α)
    (rest : α → Program sig β) :
    (call op next >>= rest : Program sig β) = call op fun answer => next answer >>= rest := rfl

@[simp]
theorem perform_bind (op : sig.Op) (rest : sig.Answer op → Program sig β) :
    (perform op >>= rest : Program sig β) = call op rest := rfl

theorem bind_assoc (program : Program sig α) (first : α → Program sig β)
    (second : β → Program sig γ) :
    (program >>= first) >>= second = program >>= fun value => first value >>= second := by
  induction program with
  | done value => rfl
  | call op next ih => simp only [call_bind, ih]

/-- The meaning of each operation on a state. -/
abbrev Handler (sig : Signature) (σ : Type) : Type :=
  (op : sig.Op) → σ → sig.Answer op × σ

section Evaluation

variable (handler : Handler sig σ)

/-- Run a program to its end. -/
def eval : Program sig α → σ → α × σ
  | done value, state => (value, state)
  | call op next, state => (next (handler op state).1).eval (handler op state).2

@[simp]
theorem eval_done (value : α) (state : σ) :
    (done value : Program sig α).eval handler state = (value, state) := rfl

@[simp]
theorem eval_call (op : sig.Op) (next : sig.Answer op → Program sig α) (state : σ) :
    (call op next).eval handler state =
      (next (handler op state).1).eval handler (handler op state).2 := rfl

@[simp]
theorem eval_perform (op : sig.Op) (state : σ) :
    (perform op : Program sig _).eval handler state = handler op state := rfl

@[simp]
theorem eval_bind (program : Program sig α) (rest : α → Program sig β) (state : σ) :
    (program >>= rest).eval handler state =
      (rest (program.eval handler state).1).eval handler (program.eval handler state).2 := by
  induction program generalizing state with
  | done value => rfl
  | call op next ih => simp only [call_bind, eval_call, ih]

@[simp]
theorem eval_ite (condition : Prop) [Decidable condition] (left right : Program sig α)
    (state : σ) :
    (if condition then left else right).eval handler state =
      if condition then left.eval handler state else right.eval handler state := by
  split <;> rfl

/-- Every call made while a program runs moves the state along a relation. -/
def Stepwise (relation : σ → σ → Prop) : Program sig α → σ → Prop
  | done _, _ => True
  | call op next, state =>
      relation state (handler op state).2 ∧
        (next (handler op state).1).Stepwise relation (handler op state).2

variable {handler} {relation : σ → σ → Prop}

@[simp]
theorem stepwise_done (value : α) (state : σ) :
    (done value : Program sig α).Stepwise handler relation state := trivial

@[simp]
theorem stepwise_call (op : sig.Op) (next : sig.Answer op → Program sig α) (state : σ) :
    (call op next).Stepwise handler relation state ↔
      relation state (handler op state).2 ∧
        (next (handler op state).1).Stepwise handler relation (handler op state).2 := Iff.rfl

@[simp]
theorem stepwise_bind (program : Program sig α) (rest : α → Program sig β) (state : σ) :
    (program >>= rest).Stepwise handler relation state ↔
      program.Stepwise handler relation state ∧
        (rest (program.eval handler state).1).Stepwise handler relation
          (program.eval handler state).2 := by
  induction program generalizing state with
  | done value => simp
  | call op next ih => simp only [call_bind, stepwise_call, ih, eval_call, and_assoc]

theorem stepwise_mono {weak : σ → σ → Prop} (weaken : ∀ before after,
    relation before after → weak before after) {program : Program sig α} {state : σ}
    (steps : program.Stepwise handler relation state) :
    program.Stepwise handler weak state := by
  induction program generalizing state with
  | done value => trivial
  | call op next ih => exact ⟨weaken _ _ steps.1, ih _ steps.2⟩

/-- What every step preserves, a whole run preserves. -/
theorem eval_of_stepwise (refl : ∀ state, relation state state)
    (trans : ∀ first second third,
      relation first second → relation second third → relation first third)
    {program : Program sig α} {state : σ}
    (steps : program.Stepwise handler relation state) :
    relation state (program.eval handler state).2 := by
  induction program generalizing state with
  | done value => exact refl state
  | call op next ih => exact trans _ _ _ steps.1 (ih _ steps.2)

end Evaluation

section Specification

variable {allowed : sig.Op → Prop} {post mid : α → Prop}

/-- Whatever is answered, only allowed operations are called and the result meets a condition. -/
def Ensures (allowed : sig.Op → Prop) (post : α → Prop) : Program sig α → Prop
  | done value => post value
  | call op next => allowed op ∧ ∀ answer, (next answer).Ensures allowed post

@[simp]
theorem ensures_done (value : α) :
    (done value : Program sig α).Ensures allowed post ↔ post value := Iff.rfl

@[simp]
theorem ensures_call (op : sig.Op) (next : sig.Answer op → Program sig α) :
    (call op next).Ensures allowed post ↔
      allowed op ∧ ∀ answer, (next answer).Ensures allowed post := Iff.rfl

theorem ensures_trivial (program : Program sig α) :
    program.Ensures (fun _ => True) fun _ => True := by
  induction program with
  | done value => trivial
  | call op next ih => exact ⟨trivial, ih⟩

/-- A program and what follows it, with a condition on the result between them. -/
theorem Ensures.bind {program : Program sig α} {rest : α → Program sig β} {last : β → Prop}
    (first : program.Ensures allowed mid)
    (later : ∀ value, mid value → (rest value).Ensures allowed last) :
    (program >>= rest).Ensures allowed last := by
  induction program with
  | done value => exact later value first
  | call op next ih => exact ⟨first.1, fun answer => ih answer (first.2 answer)⟩

theorem Ensures.mono {program : Program sig α} (weaken : ∀ value, mid value → post value)
    (ensures : program.Ensures allowed mid) : program.Ensures allowed post := by
  induction program with
  | done value => exact weaken value ensures
  | call op next ih => exact ⟨ensures.1, fun answer => ih answer (ensures.2 answer)⟩

theorem Ensures.allow {more : sig.Op → Prop} {program : Program sig α}
    (weaken : ∀ op, allowed op → more op) (ensures : program.Ensures allowed post) :
    program.Ensures more post := by
  induction program with
  | done value => exact ensures
  | call op next ih => exact ⟨weaken op ensures.1, fun answer => ih answer (ensures.2 answer)⟩

/-- What every allowed call preserves, a whole run preserves. -/
theorem Ensures.eval {handler : Handler sig σ} {relation : σ → σ → Prop}
    (refl : ∀ state, relation state state)
    (trans : ∀ first second third,
      relation first second → relation second third → relation first third)
    (step : ∀ op state, allowed op → relation state (handler op state).2)
    {program : Program sig α} (ensures : program.Ensures allowed post) (state : σ) :
    post (program.eval handler state).1 ∧ relation state (program.eval handler state).2 := by
  induction program generalizing state with
  | done value => exact ⟨ensures, refl state⟩
  | call op next ih =>
      obtain ⟨met, moved⟩ := ih _ (ensures.2 _) (handler op state).2
      exact ⟨met, trans _ _ _ (step op state ensures.1) moved⟩

end Specification

end Program
