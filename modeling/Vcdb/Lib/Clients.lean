import Vcdb.Lib.Interleaving
import Vcdb.Lib.Monitor

/-!
# Clients and mutexes

Clients run commands at the same time, one call after another and in any order.  Some calls take a
mutex or give it back, and a client that calls for a mutex that is held has to wait.  When every
command keeps to its monitor, and no call spoils the notes of those who hold other mutexes, the
notes stay true in every run.
-/

namespace Clients

/-- What a call does to the mutexes. -/
inductive MutexUse (Key : Type)
  | aside
  | acquire (key : Key)
  | release (key : Key)

namespace MutexUse

variable {Key Client : Type}

/-- The mutex held before and after a call of a client that holds one at most. -/
def Turns : MutexUse Key → Option Key → Option Key → Prop
  | aside, before, after => after = before
  | acquire key, before, after => before = none ∧ after = some key
  | release key, before, after => before = some key ∧ after = none

/-- The mutex held after a call. -/
def turn (use : MutexUse Key) (before : Option Key) : Option Key :=
  match use with
  | aside => before
  | acquire key => some key
  | release _ => none

variable [DecidableEq Key]

/-- The holders after a call, unless the client has to wait. -/
def apply (holder : Key → Option Client) (client : Client) :
    MutexUse Key → Option (Key → Option Client)
  | aside => some holder
  | acquire key =>
      if (holder key).isSome then none else some (Function.update holder key (some client))
  | release key => some (Function.update holder key none)

/-- Holders are what the client takes them to be. -/
theorem Turns.holder {use : MutexUse Key} {before after : Option Key}
    (turns : use.Turns before after) {holder holder' : Key → Option Client} {client : Client}
    (applied : use.apply holder client = some holder')
    (held : ∀ key, holder key = some client ↔ before = some key) (key : Key) :
    holder' key = some client ↔ after = some key := by
  cases use with
  | aside =>
      obtain rfl := Option.some_inj.mp applied
      obtain rfl := turns
      exact held key
  | acquire own =>
      obtain ⟨rfl, rfl⟩ := turns
      rw [apply] at applied
      split_ifs at applied
      obtain rfl := Option.some_inj.mp applied
      rw [Function.update_apply]
      split_ifs with same
      · simp [same]
      · rw [held, Option.some_inj]
        exact ⟨fun none => (by cases none), fun swap => absurd swap.symm same⟩
  | release own =>
      obtain ⟨rfl, rfl⟩ := turns
      obtain rfl := Option.some_inj.mp applied
      rw [Function.update_apply]
      split_ifs with same
      · simp
      · rw [held, Option.some_inj]
        exact ⟨fun swap => absurd swap.symm same, fun none => (by cases none)⟩

/-- The mutexes of the other clients are not touched. -/
theorem Turns.others {use : MutexUse Key} {before after : Option Key}
    (turns : use.Turns before after) {holder holder' : Key → Option Client} {client other : Client}
    (differs : other ≠ client)
    (applied : use.apply holder client = some holder')
    (held : ∀ key, holder key = some client ↔ before = some key) (key : Key) :
    holder' key = some other ↔ holder key = some other := by
  cases use with
  | aside => rw [← Option.some_inj.mp applied]
  | acquire own =>
      rw [apply] at applied
      split_ifs at applied with free
      rw [← Option.some_inj.mp applied, Function.update_apply]
      split_ifs with same
      · subst same
        have none : holder key = none := Option.not_isSome_iff_eq_none.mp free
        rw [none, Option.some_inj]
        exact ⟨fun own => absurd own.symm differs, fun none => (by cases none)⟩
      · rfl
  | release own =>
      rw [← Option.some_inj.mp applied, Function.update_apply]
      split_ifs with same
      · subst same
        rw [(held key).mpr turns.1, Option.some_inj]
        exact ⟨fun none => (by cases none), fun own => absurd own.symm differs⟩
      · rfl

end MutexUse

/-- A command that has come to a call. -/
structure Job (sig : Signature) (Cmd Reply : Type) where
  command : Cmd
  op : sig.Op
  next : sig.Answer op → Program sig Reply

/-- What is left of a command that is not at its end. -/
def Job.of {sig : Signature} {Cmd Reply : Type} (command : Cmd) :
    Program sig Reply → Option (Job sig Cmd Reply)
  | .done _ => none
  | .call op next => some ⟨command, op, next⟩

def Job.rest {sig : Signature} {Cmd Reply : Type} (job : Job sig Cmd Reply) : Program sig Reply :=
  .call job.op job.next

section Jobs

variable {sig : Signature} {Cmd Reply : Type} {command : Cmd} {program : Program sig Reply}

theorem Job.of_eq_some {job : Job sig Cmd Reply}
    (found : Job.of command program = some job) : job.command = command ∧ job.rest = program := by
  cases program with
  | done reply => cases found
  | call op next =>
      cases found
      exact ⟨rfl, rfl⟩

theorem Job.of_eq_none
    (ended : (Job.of command program : Option (Job sig Cmd Reply)) = none) :
    ∃ reply, program = .done reply := by
  cases program with
  | done reply => exact ⟨reply, rfl⟩
  | call op next => cases ended

end Jobs

/-- The entry of the log of a command that is at its end. -/
def answered {sig : Signature} {Cmd Reply : Type} (command : Cmd) :
    Program sig Reply → List (Cmd × Reply)
  | .done reply => [(command, reply)]
  | .call _ _ => []

/-- What clients do next. -/
inductive Move (Cmd : Type)
  | ask (command : Cmd)
  | call

/-- Clients on a shared state. -/
structure System (sig : Signature) (σ Key Client Cmd Reply : Type) where
  state : σ
  holder : Key → Option Client
  jobs : Client → Option (Job sig Cmd Reply)
  /-- Commands with their replies, in the order of their ends. -/
  log : List (Cmd × Reply)

section Stepping

variable {sig : Signature} {σ Key Client Cmd Reply : Type}

/-- All clients are idle. -/
def System.opened (state : σ) : System sig σ Key Client Cmd Reply :=
  ⟨state, fun _ => none, fun _ => none, []⟩

variable [DecidableEq Client]

/-- A client goes on with the rest of a command, up to its next call. -/
def System.settle (s : System sig σ Key Client Cmd Reply) (client : Client) (command : Cmd)
    (program : Program sig Reply) : System sig σ Key Client Cmd Reply :=
  { s with
    jobs := Function.update s.jobs client (Job.of command program)
    log := s.log ++ answered command program }

section Settling

variable {s : System sig σ Key Client Cmd Reply} {client : Client}

theorem System.jobs_settle_of_ne (command : Cmd) (program : Program sig Reply) {other : Client}
    (differs : other ≠ client) : (s.settle client command program).jobs other = s.jobs other :=
  Function.update_of_ne differs _ _

theorem System.jobs_settle_self (command : Cmd) (program : Program sig Reply) :
    (s.settle client command program).jobs client = Job.of command program :=
  Function.update_self _ _ _

end Settling

variable [DecidableEq Key]
  (mutex : sig.Op → MutexUse Key) (handler : Program.Handler sig σ)
  (run : Cmd → Program sig Reply)

/-- One client takes a step, if it can. -/
def System.step (s : System sig σ Key Client Cmd Reply) (client : Client) :
    Move Cmd → Option (System sig σ Key Client Cmd Reply)
  | .ask command =>
      if (s.jobs client).isSome then none else some (s.settle client command (run command))
  | .call =>
      (s.jobs client).bind fun job =>
        ((mutex job.op).apply s.holder client).map fun holder =>
          { s with state := (handler job.op s.state).2, holder }.settle client job.command
            (job.next (handler job.op s.state).1)

variable {mutex handler run} {s after : System sig σ Key Client Cmd Reply} {client : Client}

/-- A schedule, in which a client that cannot take its step loses its turn. -/
def System.runTurns (mutex : sig.Op → MutexUse Key) (handler : Program.Handler sig σ)
    (run : Cmd → Program sig Reply) (s : System sig σ Key Client Cmd Reply)
    (turns : List (Client × Move Cmd)) : System sig σ Key Client Cmd Reply :=
  turns.foldl (fun s turn => (s.step mutex handler run turn.1 turn.2).getD s) s

theorem System.step_ask {command : Cmd}
    (moved : s.step mutex handler run client (.ask command) = some after) :
    s.jobs client = none ∧ after = s.settle client command (run command) := by
  rw [step] at moved
  split_ifs at moved with busy
  exact ⟨Option.not_isSome_iff_eq_none.mp busy, (Option.some_inj.mp moved).symm⟩

theorem System.step_call (moved : s.step mutex handler run client .call = some after) :
    ∃ job holder, s.jobs client = some job ∧
      (mutex job.op).apply s.holder client = some holder ∧
      after = { s with state := (handler job.op s.state).2, holder }.settle client job.command
        (job.next (handler job.op s.state).1) := by
  obtain ⟨job, busy, mapped⟩ := Option.bind_eq_some_iff.mp moved
  obtain ⟨holder, applied, same⟩ := Option.map_eq_some_iff.mp mapped
  exact ⟨job, holder, busy, applied, same.symm⟩

theorem System.reached_runTurns
    {rule : System sig σ Key Client Cmd Reply → Client → Move Cmd → Prop}
    {initial : System sig σ Key Client Cmd Reply} {turns : List (Client × Move Cmd)}
    (allowed : ∀ turn ∈ turns, ∀ s, rule s turn.1 turn.2)
    (reached : Interleaving.Reached (System.step mutex handler run) rule initial s) :
    Interleaving.Reached (System.step mutex handler run) rule initial
      (s.runTurns mutex handler run turns) := by
  induction turns generalizing s with
  | nil => exact reached
  | cons turn turns ih =>
      refine ih (fun other mem => allowed other (List.mem_cons_of_mem _ mem)) ?_
      simp only
      cases moved : s.step mutex handler run turn.1 turn.2 with
      | none => exact reached
      | some after => exact .next reached (allowed turn List.mem_cons_self s) moved

end Stepping

/-! ### Notes that stay true -/

section Watching

variable {sig : Signature} {σ Key Client Cmd Reply μ : Type}

/-- What is noted of commands while they run: the mutex that is held, and what is true of the
state. -/
structure Notes (sig : Signature) (σ Key Cmd Reply μ : Type) where
  monitor : Cmd → Monitor sig μ
  abort : Cmd → Reply → Prop
  post : Cmd → μ → Reply → Prop
  first : μ
  locks : Cmd → μ → Option Key
  holds : Cmd → μ → σ → Prop

/-- Commands that keep to their monitors, and whose calls spoil the notes of nobody else who does
not hold the same mutex. -/
structure Discipline (mutex : sig.Op → MutexUse Key) (handler : Program.Handler sig σ)
    (run : Cmd → Program sig Reply) (admits : Cmd → Prop) (notes : Notes sig σ Key Cmd Reply μ) :
    Prop where
  follows : ∀ command, admits command → (run command).Follows (notes.monitor command)
    (notes.abort command) (notes.post command) notes.first
  begins : ∀ command state, notes.locks command notes.first = none ∧
    notes.holds command notes.first state
  ends : ∀ command note reply, notes.post command note reply → notes.locks command note = none
  own : ∀ command note op state, (notes.monitor command).allows note op →
    notes.holds command note state →
      ∃ next, (notes.monitor command).after note op (handler op state).1 = some next ∧
        (mutex op).Turns (notes.locks command note) (notes.locks command next) ∧
        notes.holds command next (handler op state).2
  others : ∀ command note op state other note', (notes.monitor command).allows note op →
    notes.holds command note state →
    (∀ key, notes.locks command note = some key → notes.locks other note' ≠ some key) →
    notes.holds other note' state → notes.holds other note' (handler op state).2

/-- The note of a client in the middle of a command. -/
structure Noted (notes : Notes sig σ Key Cmd Reply μ) (s : System sig σ Key Client Cmd Reply)
    (client : Client) (command : Cmd) (rest : Program sig Reply) (note : μ) : Prop where
  follows : rest.Follows (notes.monitor command) (notes.abort command) (notes.post command) note
  holds : notes.holds command note s.state
  held : ∀ key, s.holder key = some client ↔ notes.locks command note = some key

/-- Every client has a note, and those that are idle hold nothing. -/
structure Watched (notes : Notes sig σ Key Cmd Reply μ) (s : System sig σ Key Client Cmd Reply) :
    Prop where
  busy : ∀ client job, s.jobs client = some job →
    ∃ note, Noted notes s client job.command job.rest note
  idle : ∀ client key, s.jobs client = none → s.holder key ≠ some client

variable {mutex : sig.Op → MutexUse Key} {handler : Program.Handler sig σ}
  {run : Cmd → Program sig Reply} {admits : Cmd → Prop} {notes : Notes sig σ Key Cmd Reply μ}
  {s after : System sig σ Key Client Cmd Reply} {client : Client}

theorem watched_opened (start : σ) :
    Watched notes (System.opened start : System sig σ Key Client Cmd Reply) :=
  ⟨fun _ _ busy => (by cases busy), fun _ _ _ held => (by cases held)⟩

/-- The call a client comes to next keeps to its monitor, and its note goes on. -/
theorem Discipline.calls (discipline : Discipline mutex handler run admits notes) {command : Cmd}
    {op : sig.Op} {next : sig.Answer op → Program sig Reply} {note : μ}
    (noted : Noted notes s client command (.call op next) note) :
    (notes.monitor command).allows note op ∧ ∃ note',
      (next (handler op s.state).1).Follows (notes.monitor command) (notes.abort command)
        (notes.post command) note' ∧
      (mutex op).Turns (notes.locks command note) (notes.locks command note') ∧
      notes.holds command note' (handler op s.state).2 := by
  obtain ⟨allowed, continues⟩ := (Program.follows_call op next).mp noted.follows
  obtain ⟨note', goes, turns, holds'⟩ := discipline.own command note op s.state allowed noted.holds
  exact ⟨allowed, note', (continues _).2 note' goes, turns, holds'⟩

variable [DecidableEq Client]

/-- A client goes on, and the notes of the others are as good as before. -/
theorem Watched.settle (watched : Watched notes s) {state : σ} {holder : Key → Option Client}
    {command : Cmd} {program : Program sig Reply} {note : μ}
    (ends : ∀ command note reply, notes.post command note reply → notes.locks command note = none)
    (noted : Noted notes { s with state, holder } client command program note)
    (others : ∀ other, other ≠ client → ∀ key, holder key = some other ↔ s.holder key = some other)
    (kept : ∀ other job note', other ≠ client → s.jobs other = some job →
      Noted notes s other job.command job.rest note' → notes.holds job.command note' state) :
    Watched notes ({ s with state, holder }.settle client command program) := by
  constructor
  · intro other job busy
    by_cases same : other = client
    · subst same
      rw [System.jobs_settle_self] at busy
      obtain ⟨rfl, rfl⟩ := Job.of_eq_some busy
      exact ⟨note, noted.follows, noted.holds, noted.held⟩
    · rw [System.jobs_settle_of_ne _ _ same] at busy
      obtain ⟨note', noted'⟩ := watched.busy other job busy
      exact ⟨note', noted'.follows, kept other job note' same busy noted', fun key =>
        (others other same key).trans (noted'.held key)⟩
  · intro other key idle held
    by_cases same : other = client
    · subst same
      rw [System.jobs_settle_self] at idle
      obtain ⟨reply, rfl⟩ := Job.of_eq_none idle
      have free := ends command note reply noted.follows
      have taken := (noted.held key).mp held
      rw [free] at taken
      cases taken
    · rw [System.jobs_settle_of_ne _ _ same] at idle
      exact watched.idle other key idle ((others other same key).mp held)

variable [DecidableEq Key] (discipline : Discipline mutex handler run admits notes)
include discipline

theorem Discipline.step {move : Move Cmd} (watched : Watched notes s)
    (admitted : ∀ command, move = .ask command → admits command)
    (moved : s.step mutex handler run client move = some after) : Watched notes after := by
  cases move with
  | ask command =>
      obtain ⟨idle, rfl⟩ := System.step_ask moved
      obtain ⟨free, begins⟩ := discipline.begins command s.state
      refine watched.settle discipline.ends
        ⟨discipline.follows command (admitted command rfl), begins, fun key => ?_⟩
        (fun _ _ _ => Iff.rfl) fun _ _ _ _ _ noted => noted.holds
      rw [free]
      exact ⟨fun held => absurd held (watched.idle client key idle), fun taken => (by cases taken)⟩
  | call =>
      obtain ⟨job, holder, busy, applied, rfl⟩ := System.step_call moved
      obtain ⟨note, noted⟩ := watched.busy client job busy
      obtain ⟨allowed, note', follows, turns, holds'⟩ := discipline.calls noted
      refine watched.settle discipline.ends
        ⟨follows, holds', fun key => turns.holder applied noted.held key⟩
        (fun other differs key => turns.others differs applied noted.held key)
        fun other job' note'' differs busy' noted' => ?_
      refine discipline.others _ note _ _ _ note'' allowed noted.holds (fun key own theirs => ?_)
        noted'.holds
      have mine := (noted.held key).mpr own
      rw [(noted'.held key).mpr theirs, Option.some_inj] at mine
      exact differs mine

/-- In every run the notes stay true. -/
theorem Discipline.watched {rule : System sig σ Key Client Cmd Reply → Client → Move Cmd → Prop}
    {start : σ} (admitted : ∀ s client command, rule s client (.ask command) → admits command)
    (reached : Interleaving.Reached (System.step mutex handler run) rule (System.opened start) s) :
    Watched notes s := by
  refine reached.invariant (Watched notes) (watched_opened start)
    fun state client move after watched allowed moved => ?_
  exact discipline.step watched
    (fun command asked => admitted state client command (asked ▸ allowed)) moved

/-- A client that cannot go on waits for a mutex, and the one who holds it can go on. -/
theorem Discipline.progress (watched : Watched notes s) {job : Job sig Cmd Reply}
    (busy : s.jobs client = some job) :
    (s.step mutex handler run client .call).isSome ∨ ∃ key other, mutex job.op = .acquire key ∧
      s.holder key = some other ∧ (s.step mutex handler run other .call).isSome := by
  have goes : ∀ (client : Client) (job : Job sig Cmd Reply), s.jobs client = some job →
      ((mutex job.op).apply s.holder client).isSome →
      (s.step mutex handler run client .call).isSome := by
    intro client job busy applied
    rw [System.step, busy, Option.bind_some, Option.isSome_map]
    exact applied
  cases use : mutex job.op with
  | aside =>
      refine Or.inl (goes client job busy ?_)
      rw [use]
      rfl
  | release key =>
      refine Or.inl (goes client job busy ?_)
      rw [use]
      rfl
  | acquire key =>
      cases held : s.holder key with
      | none =>
          refine Or.inl (goes client job busy ?_)
          rw [use, MutexUse.apply, held]
          rfl
      | some other =>
          refine Or.inr ⟨key, other, rfl, held, ?_⟩
          cases theirs : s.jobs other with
          | none => exact absurd held (watched.idle other key theirs)
          | some job' =>
              obtain ⟨note, noted⟩ := watched.busy other job' theirs
              obtain ⟨_, note', _, turns, _⟩ := discipline.calls noted
              refine goes other job' theirs ?_
              -- Who holds a mutex does not call for another one.
              cases use' : mutex job'.op with
              | aside => rfl
              | release own => rfl
              | acquire own =>
                  rw [use'] at turns
                  have locked := (noted.held key).mp held
                  rw [turns.1] at locked
                  cases locked

end Watching

/-! ### One mutex at a time -/

section Locking

variable {sig : Signature} {σ Key Cmd Reply : Type}

/-- The calls of a program that holds one mutex at a time.  Nothing is asked of it any more when a
call has failed. -/
def lockMonitor (mutex : sig.Op → MutexUse Key) (fails : (op : sig.Op) → sig.Answer op → Bool) :
    Monitor sig (Option Key) where
  allows held op := (mutex op).Turns held ((mutex op).turn held)
  after held op answer := if fails op answer then none else some ((mutex op).turn held)
  idle _ := True

variable (mutex : sig.Op → MutexUse Key) (fails : (op : sig.Op) → sig.Answer op → Bool)

/-- A program that holds one mutex at a time, and none in the end. -/
def KeepsMutex (held : Option Key) (program : Program sig Reply) : Prop :=
  program.Follows (lockMonitor mutex fails) (fun _ => True) (fun last _ => last = none) held

def lockNotes (σ Cmd Reply : Type) : Notes sig σ Key Cmd Reply (Option Key) where
  monitor _ := lockMonitor mutex fails
  abort _ _ := True
  post _ held _ := held = none
  first := none
  locks _ held := held
  holds _ _ _ := True

variable {mutex fails} {handler : Program.Handler sig σ} {run : Cmd → Program sig Reply}
  {admits : Cmd → Prop}

theorem keepsMutex_call {held : Option Key} {op : sig.Op}
    {next : sig.Answer op → Program sig Reply}
    (turns : (mutex op).Turns held ((mutex op).turn held))
    (rest : ∀ answer, fails op answer = false →
      KeepsMutex mutex fails ((mutex op).turn held) (next answer)) :
    KeepsMutex mutex fails held (.call op next) := by
  refine (Program.follows_call op next).mpr ⟨turns, fun answer => ⟨fun _ => ?_, fun note noted => ?_⟩⟩
  · exact (next answer).ensures_trivial
  · simp only [lockMonitor] at noted
    split_ifs at noted with failed
    obtain rfl := Option.some_inj.mp noted
    exact rest answer (Bool.eq_false_iff.mpr failed)

/-- Commands that hold one mutex at a time do so in every run. -/
theorem lockDiscipline (never : ∀ op state, fails op (handler op state).1 = false)
    (keeps : ∀ command, admits command → KeepsMutex mutex fails none (run command)) :
    Discipline mutex handler run admits (lockNotes mutex fails σ Cmd Reply) where
  follows := keeps
  begins _ _ := ⟨rfl, trivial⟩
  ends _ _ _ ended := ended
  own _ held op state allowed _ := by
    refine ⟨(mutex op).turn held, if_neg ?_, allowed, trivial⟩
    rw [never]
    exact Bool.false_ne_true
  others _ _ _ _ _ _ _ _ _ _ := trivial

end Locking

end Clients
