import Vcdb.Lib.Program

/-!
# Programs under watch

A monitor keeps a note of the operations that a program has called and of their answers.  It tells
which calls may come next and which answers are failures; what follows it comes to its end after a
failure, without further effects.
-/

/-- The discipline of the calls of a program. -/
structure Monitor (sig : Signature) (μ : Type) where
  /-- Calls that may be made next. -/
  allows : μ → sig.Op → Prop
  /-- The note after a call, unless the answer is a failure. -/
  after : μ → (op : sig.Op) → sig.Answer op → Option μ
  /-- Calls that may be made after a failure. -/
  idle : sig.Op → Prop

namespace Program

variable {sig : Signature} {α β μ σ : Type} {monitor : Monitor sig μ} {note : μ}

/-- Whatever is answered, the calls keep to the monitor, a failure is reported, and otherwise the
last note and the result meet a condition. -/
def Follows (monitor : Monitor sig μ) (abort : α → Prop) (post : μ → α → Prop) :
    μ → Program sig α → Prop
  | note, done value => post note value
  | note, call op next => monitor.allows note op ∧ ∀ answer,
      match monitor.after note op answer with
      | none => (next answer).Ensures monitor.idle abort
      | some note => (next answer).Follows monitor abort post note

section Rules

variable {abort abort' : α → Prop} {post post' : μ → α → Prop}

@[simp]
theorem follows_done (value : α) :
    (done value : Program sig α).Follows monitor abort post note ↔ post note value := Iff.rfl

theorem follows_call (op : sig.Op) (next : sig.Answer op → Program sig α) :
    (call op next).Follows monitor abort post note ↔ monitor.allows note op ∧ ∀ answer,
      (monitor.after note op answer = none → (next answer).Ensures monitor.idle abort) ∧
      ∀ note', monitor.after note op answer = some note' →
        (next answer).Follows monitor abort post note' := by
  refine and_congr_right fun _ => forall_congr' fun answer => ?_
  cases monitor.after note op answer with
  | none => simp
  | some note' => simp

/-- A program and what follows it, in its good and in its bad end. -/
theorem Follows.bind {program : Program sig α} {rest : α → Program sig β} {last : β → Prop}
    {final : μ → β → Prop} (first : program.Follows monitor abort post note)
    (later : ∀ note value, post note value → (rest value).Follows monitor last final note)
    (failed : ∀ value, abort value → (rest value).Ensures monitor.idle last) :
    (program >>= rest).Follows monitor last final note := by
  induction program generalizing note with
  | done value => exact later note value first
  | call op next ih =>
      obtain ⟨allowed, continues⟩ := (follows_call op next).mp first
      refine (follows_call op _).mpr ⟨allowed, fun answer => ⟨fun fails => ?_, fun note' goes => ?_⟩⟩
      · exact ((continues answer).1 fails).bind failed
      · exact ih answer ((continues answer).2 note' goes)

theorem Follows.mono {program : Program sig α} (weaken : ∀ note value, post note value →
    post' note value) (abandon : ∀ value, abort value → abort' value)
    (follows : program.Follows monitor abort post note) :
    program.Follows monitor abort' post' note := by
  induction program generalizing note with
  | done value => exact weaken note value follows
  | call op next ih =>
      obtain ⟨allowed, continues⟩ := (follows_call op next).mp follows
      refine (follows_call op _).mpr ⟨allowed, fun answer => ⟨fun fails => ?_, fun note' goes => ?_⟩⟩
      · exact ((continues answer).1 fails).mono abandon
      · exact ih answer ((continues answer).2 note' goes)

/-- A program whose result is turned into another one. -/
theorem Follows.map {program : Program sig α} {reply : α → β} {last : β → Prop}
    {final : μ → β → Prop} (follows : program.Follows monitor abort post note)
    (later : ∀ note value, post note value → final note (reply value))
    (failed : ∀ value, abort value → last (reply value)) :
    (program >>= fun value => (done (reply value) : Program sig β)).Follows monitor last final
      note :=
  follows.bind later failed

end Rules

section Soundness

variable {abort : α → Prop} {post : μ → α → Prop} {handler : Handler sig σ}
  {holds : μ → σ → Prop} {failed : σ → Prop}

/-- What the note says about the state is kept by every call, up to a failure, and so by a whole
run. -/
theorem Follows.eval
    (step : ∀ note op state, monitor.allows note op → holds note state →
      (monitor.after note op (handler op state).1 = none → failed (handler op state).2) ∧
      ∀ note', monitor.after note op (handler op state).1 = some note' →
        holds note' (handler op state).2)
    (rest : ∀ op state, monitor.idle op → failed state → failed (handler op state).2)
    {program : Program sig α} (follows : program.Follows monitor abort post note) {state : σ}
    (start : holds note state) :
    (∃ last, post last (program.eval handler state).1 ∧
        holds last (program.eval handler state).2) ∨
      abort (program.eval handler state).1 ∧ failed (program.eval handler state).2 := by
  induction program generalizing note state with
  | done value => exact Or.inl ⟨note, follows, start⟩
  | call op next ih =>
      obtain ⟨allowed, continues⟩ := (follows_call op next).mp follows
      obtain ⟨fails, goes⟩ := step note op state allowed start
      cases noted : monitor.after note op (handler op state).1 with
      | some note' => exact ih _ ((continues _).2 note' noted) (goes note' noted)
      | none =>
          refine Or.inr ?_
          have kept := @Ensures.eval sig _ σ monitor.idle abort handler
            (fun before after => failed before → failed after) (fun _ => id)
            (fun _ _ _ left right kept => right (left kept)) rest _ ((continues _).1 noted)
            (handler op state).2
          exact ⟨kept.1, kept.2 (fails noted)⟩

end Soundness

end Program
