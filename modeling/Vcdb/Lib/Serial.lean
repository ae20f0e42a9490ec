import Vcdb.Lib.Clients

/-!
# Serial orders

Commands that hold the mutex of one key, and work on the part of the state that belongs to it, leave
what they would leave one after another, in the order in which they end.
-/

namespace Clients

/-- The part of the state that commands work on, what calls can do to it, and which part of it
belongs to a key. -/
structure Shared (sig : Signature) (σ D Key Part : Type) where
  view : σ → D
  good : σ → Prop
  valid : D → Prop
  part : D → Key → Part
  does : (op : sig.Op) → D → sig.Answer op → D → Prop

section Definitions

variable {sig : Signature} {σ D Key Part Cmd Reply : Type} (shared : Shared sig σ D Key Part)

/-- The calls are possible ones. -/
def Shared.Sound (handler : Program.Handler sig σ) : Prop :=
  ∀ op state, shared.good state → shared.good (handler op state).2 ∧
    shared.does op (shared.view state) (handler op state).1 (shared.view (handler op state).2)

/-- Nothing has changed that belongs to another key. -/
structure Shared.Only (key : Key) (d after : D) : Prop where
  valid : shared.valid after
  others : ∀ other, other ≠ key → shared.part after other = shared.part d other

/-- A call that leaves everything as it is. -/
def Shared.Quiet (op : sig.Op) : Prop := ∀ d answer after, shared.does op d answer after → after = d

/-- A call that does not even look. -/
def Shared.Blind (op : sig.Op) : Prop :=
  ∀ d answer after, shared.does op d answer after → after = d ∧ ∀ d', shared.does op d' answer d'

/-- A call that works on the part of a key, and goes on in the same way wherever this part is the
same. -/
def Shared.On (key : Key) (op : sig.Op) (next : sig.Answer op → Program sig Reply) : Prop :=
  ∀ d d' answer after, shared.valid d → shared.valid d' → shared.part d' key = shared.part d key →
    shared.does op d answer after → shared.Only key d after ∧
      ∃ answer' after', shared.does op d' answer' after' ∧ next answer' = next answer ∧
        shared.Only key d' after' ∧ shared.part after' key = shared.part after key

/-- What can become of a program. -/
inductive Shared.Runs (program : Program sig Reply) (d : D) : Program sig Reply → D → Prop
  | refl : Runs program d program d
  | step {op : sig.Op} {next : sig.Answer op → Program sig Reply} {after last : D}
      {answer : sig.Answer op} (runs : Runs program d (.call op next) after)
      (does : shared.does op after answer last) : Runs program d (next answer) last

variable (mutex : sig.Op → MutexUse Key)

/-- The rest of a command that holds the mutex of its key, which it gives back at its end. -/
inductive Shared.Inside (key : Key) : Program sig Reply → Prop
  | call {op : sig.Op} {next : sig.Answer op → Program sig Reply} (aside : mutex op = .aside)
      (on : shared.On key op next) (rest : ∀ answer, Inside key (next answer)) :
      Inside key (.call op next)
  | release {op : sig.Op} {next : sig.Answer op → Program sig Reply} {reply : Reply}
      (gives : mutex op = .release key) (blind : shared.Blind op)
      (ends : ∀ answer, next answer = .done reply) : Inside key (.call op next)

/-- A command that takes the mutex of its key before it looks at anything. -/
inductive Shared.Guarded (key : Key) : Program sig Reply → Prop
  | done (reply : Reply) : Guarded key (.done reply)
  | call {op : sig.Op} {next : sig.Answer op → Program sig Reply} (aside : mutex op = .aside)
      (blind : shared.Blind op) (rest : ∀ answer, Guarded key (next answer)) :
      Guarded key (.call op next)
  | acquire {op : sig.Op} {next : sig.Answer op → Program sig Reply} (takes : mutex op = .acquire key)
      (blind : shared.Blind op) (inside : ∀ answer, shared.Inside mutex key (next answer)) :
      Guarded key (.call op next)

/-- The commands of a log, one after another.  Those without a key of their own leave everything as
it is. -/
inductive Shared.Serial (run : Cmd → Program sig Reply) (own : Cmd → Option Key) (start : D) :
    List (Cmd × Reply) → D → Prop
  | start : Serial run own start [] start
  | quiet {log : List (Cmd × Reply)} {d : D} {command : Cmd} (serial : Serial run own start log d)
      (free : own command = none) (reply : Reply) : Serial run own start (log ++ [(command, reply)]) d
  | next {log : List (Cmd × Reply)} {d after : D} {command : Cmd} {key : Key} {reply : Reply}
      (serial : Serial run own start log d) (owns : own command = some key)
      (runs : shared.Runs (run command) d (.done reply) after) :
      Serial run own start (log ++ [(command, reply)]) after

/-- Commands that hold one mutex at a time, and work on their own key or change nothing. -/
structure Shared.Locking (fails : (op : sig.Op) → sig.Answer op → Bool)
    (handler : Program.Handler sig σ) (run : Cmd → Program sig Reply) (own : Cmd → Option Key)
    (admits : Cmd → Prop) : Prop where
  sound : shared.Sound handler
  never : ∀ op state, fails op (handler op state).1 = false
  keeps : ∀ command, admits command → KeepsMutex mutex fails none (run command)
  guarded : ∀ command key, admits command → own command = some key →
    shared.Guarded mutex key (run command)
  quiet : ∀ command, admits command → own command = none →
    (run command).Ensures shared.Quiet fun _ => True

end Definitions

section Serializing

variable {sig : Signature} {σ D Key Part Client Cmd Reply : Type}
  {shared : Shared sig σ D Key Part} {mutex : sig.Op → MutexUse Key}
  {fails : (op : sig.Op) → sig.Answer op → Bool} {handler : Program.Handler sig σ}
  {run : Cmd → Program sig Reply} {own : Cmd → Option Key} {admits : Cmd → Prop}

theorem Shared.Only.trans {key : Key} {d after last : D} (first : shared.Only key d after)
    (second : shared.Only key after last) : shared.Only key d last :=
  ⟨second.valid, fun other differs => (second.others other differs).trans (first.others other differs)⟩

/-- What a command that holds the mutex has done so far, it would have done to any state with the
same part. -/
def Shared.Underway (shared : Shared sig σ D Key Part) (program : Program sig Reply) (key : Key)
    (serial now : D) (rest : Program sig Reply) : Prop :=
  ∀ d, shared.valid d → shared.part d key = shared.part serial key →
    ∃ after, shared.Runs program d rest after ∧ shared.Only key d after ∧
      shared.part after key = shared.part now key

/-- How far a command has come. -/
inductive Shared.Stage (shared : Shared sig σ D Key Part) (mutex : sig.Op → MutexUse Key)
    (run : Cmd → Program sig Reply) (own : Cmd → Option Key) (serial now : D) (command : Cmd)
    (rest : Program sig Reply) : Option Key → Prop
  | reading {held : Option Key} (free : own command = none)
      (quiet : rest.Ensures shared.Quiet fun _ => True) :
      Stage shared mutex run own serial now command rest held
  | waiting {key : Key} (owns : own command = some key) (guarded : shared.Guarded mutex key rest)
      (runs : ∀ d, shared.Runs (run command) d rest d) :
      Stage shared mutex run own serial now command rest none
  | inside {key : Key} (owns : own command = some key) (inside : shared.Inside mutex key rest)
      (underway : shared.Underway (run command) key serial now rest) :
      Stage shared mutex run own serial now command rest (some key)

/-- Nothing that a command inside depends on has changed. -/
theorem Shared.Stage.frame {serial now serial' now' : D} {command : Cmd}
    {rest : Program sig Reply} {held : Option Key}
    (stage : shared.Stage mutex run own serial now command rest held)
    (same : ∀ key, held = some key → own command = some key →
      shared.part serial' key = shared.part serial key ∧ shared.part now' key = shared.part now key) :
    shared.Stage mutex run own serial' now' command rest held := by
  cases stage with
  | reading free quiet => exact .reading free quiet
  | waiting owns guarded runs => exact .waiting owns guarded runs
  | inside owns inside underway =>
      obtain ⟨before, current⟩ := same _ rfl owns
      refine .inside owns inside fun d valid agrees => ?_
      obtain ⟨after, runs, only, ends⟩ := underway d valid (agrees.trans before)
      exact ⟨after, runs, only, ends.trans current.symm⟩

/-- A log that stands for a serial order. -/
structure Serialized (shared : Shared sig σ D Key Part) (mutex : sig.Op → MutexUse Key)
    (run : Cmd → Program sig Reply) (own : Cmd → Option Key) (start : D)
    (s : System sig σ Key Client Cmd Reply) (serial : D) : Prop where
  log : shared.Serial run own start s.log serial
  good : shared.good s.state
  valid : shared.valid (shared.view s.state)
  serialValid : shared.valid serial
  stage : ∀ client job held, s.jobs client = some job →
    (∀ key, s.holder key = some client ↔ held = some key) →
    shared.Stage mutex run own serial (shared.view s.state) job.command job.rest held
  free : ∀ key, (∀ client job, s.jobs client = some job → own job.command = some key →
      s.holder key ≠ some client) →
    shared.part (shared.view s.state) key = shared.part serial key

variable {s after : System sig σ Key Client Cmd Reply} {client : Client} {start serial : D}

theorem serialized_opened {state : σ} (good : shared.good state)
    (valid : shared.valid (shared.view state)) :
    Serialized shared mutex run own (shared.view state)
      (System.opened state : System sig σ Key Client Cmd Reply) (shared.view state) where
  log := .start
  good := good
  valid := valid
  serialValid := valid
  stage _ _ _ busy := by cases busy
  free _ _ := rfl

variable [DecidableEq Client]

/-- A client goes on.  What the others depend on must not have changed. -/
theorem Serialized.settle (serialized : Serialized shared mutex run own start s serial)
    {state : σ} {holder : Key → Option Client} {command : Cmd} {program : Program sig Reply}
    {serial' : D} (good : shared.good state) (valid : shared.valid (shared.view state))
    (serialValid : shared.valid serial')
    (log : shared.Serial run own start (s.log ++ answered command program) serial')
    (stage : ∀ held, (∀ key, holder key = some client ↔ held = some key) →
      (∀ reply, program ≠ .done reply) →
      shared.Stage mutex run own serial' (shared.view state) command program held)
    (others : ∀ other, other ≠ client → ∀ key, holder key = some other ↔ s.holder key = some other)
    (frame : ∀ other key, other ≠ client → s.holder key = some other →
      shared.part serial' key = shared.part serial key ∧
        shared.part (shared.view state) key = shared.part (shared.view s.state) key)
    (free : ∀ key, ((∀ reply, program ≠ .done reply) → own command = some key →
        holder key ≠ some client) →
      (∀ other job, other ≠ client → s.jobs other = some job → own job.command = some key →
        s.holder key ≠ some other) →
      shared.part (shared.view state) key = shared.part serial' key) :
    Serialized shared mutex run own start ({ s with state, holder }.settle client command program)
      serial' where
  log := log
  good := good
  valid := valid
  serialValid := serialValid
  stage other job held busy holds := by
    by_cases same : other = client
    · subst same
      rw [System.jobs_settle_self] at busy
      obtain ⟨rfl, rfl⟩ := Job.of_eq_some busy
      exact stage held holds fun reply ends => (by cases ends)
    · rw [System.jobs_settle_of_ne _ _ same] at busy
      have held' := fun key => (others other same key).symm.trans (holds key)
      refine (serialized.stage other job held busy held').frame fun key locked _ => ?_
      exact frame other key same ((held' key).mpr locked)
  free key released := by
    refine free key (fun ongoing owns held => ?_) fun other job differs busy owns held => ?_
    · cases program with
      | done reply => exact ongoing reply rfl
      | call op next =>
          exact released client ⟨command, op, next⟩ (System.jobs_settle_self _ _) owns held
    · refine released other job ?_ owns ((others other differs key).mpr held)
      rw [System.jobs_settle_of_ne _ _ differs]
      exact busy

theorem Shared.Serial.answered {log : List (Cmd × Reply)} {d after : D} {command : Cmd}
    {program : Program sig Reply} (serial : shared.Serial run own start log d)
    (ends : ∀ reply, program = .done reply → own command = none ∧ after = d ∨
      ∃ key, own command = some key ∧ shared.Runs (run command) d (.done reply) after)
    (stays : (∀ reply, program ≠ .done reply) → after = d) :
    shared.Serial run own start (log ++ Clients.answered command program) after := by
  cases program with
  | call op next =>
      obtain rfl := stays fun reply same => (by cases same)
      rw [Clients.answered, List.append_nil]
      exact serial
  | done reply =>
      rcases ends reply rfl with ⟨free, rfl⟩ | ⟨key, owns, runs⟩
      · exact serial.quiet free reply
      · exact serial.next owns runs

theorem Serialized.ask (serialized : Serialized shared mutex run own start s serial)
    (locking : shared.Locking mutex fails handler run own admits) {command : Cmd}
    (admitted : admits command) (idle : s.jobs client = none)
    (empty : ∀ key, s.holder key ≠ some client) :
    Serialized shared mutex run own start (s.settle client command (run command)) serial := by
  refine serialized.settle serialized.good serialized.valid serialized.serialValid ?_
    (fun held holds _ => ?_) (fun _ _ _ => Iff.rfl) (fun _ _ _ _ => ⟨rfl, rfl⟩)
    fun key _ others => ?_
  · refine serialized.log.answered (fun reply ended => ?_) fun _ => rfl
    cases owns : own command with
    | none => exact Or.inl ⟨rfl, rfl⟩
    | some key => exact Or.inr ⟨key, rfl, ended ▸ .refl⟩
  · have nothing : held = none := by
      rw [Option.eq_none_iff_forall_not_mem]
      exact fun key locked => empty key ((holds key).mpr locked)
    subst nothing
    cases owns : own command with
    | none => exact .reading owns (locking.quiet command admitted owns)
    | some key => exact .waiting owns (locking.guarded command key admitted owns) fun _ => .refl
  · refine serialized.free key fun other job busy owns held => ?_
    refine others other job (fun same => ?_) busy owns held
    rw [same, idle] at busy
    cases busy

/-- The part of a key that no command on it holds. -/
theorem Serialized.unowned (serialized : Serialized shared mutex run own start s serial)
    {job : Job sig Cmd Reply} (busy : s.jobs client = some job) {key : Key}
    (foreign : own job.command = some key → s.holder key ≠ some client)
    (others : ∀ other job, other ≠ client → s.jobs other = some job → own job.command = some key →
      s.holder key ≠ some other) :
    shared.part (shared.view s.state) key = shared.part serial key := by
  refine serialized.free key fun other job' busy' owns => ?_
  by_cases same : other = client
  · subst same
    obtain rfl := Option.some_inj.mp (busy.symm.trans busy')
    exact foreign owns
  · exact others other job' same busy' owns

section Calling

variable {command : Cmd} {op : sig.Op} {next : sig.Answer op → Program sig Reply}
  {holder : Key → Option Client}

/-- A call that changes nothing, of a command without a key of its own. -/
theorem Serialized.read (serialized : Serialized shared mutex run own start s serial)
    (sound : shared.Sound handler) (busy : s.jobs client = some ⟨command, op, next⟩)
    (free : own command = none)
    (quiet : (Program.call op next).Ensures shared.Quiet fun _ => True)
    (others : ∀ other, other ≠ client → ∀ key, holder key = some other ↔ s.holder key = some other) :
    Serialized shared mutex run own start
      ({ s with state := (handler op s.state).2, holder }.settle client command
        (next (handler op s.state).1)) serial := by
  obtain ⟨good, does⟩ := sound op s.state serialized.good
  have same := quiet.1 _ _ _ does
  refine serialized.settle good (same ▸ serialized.valid) serialized.serialValid
    (serialized.log.answered (fun _ _ => Or.inl ⟨free, rfl⟩) fun _ => rfl)
    (fun _ _ _ => .reading free (quiet.2 _)) others
    (fun _ _ _ _ => ⟨rfl, by rw [same]⟩) fun key _ released => ?_
  rw [same]
  refine serialized.unowned busy (fun owns => ?_) released
  rw [free] at owns
  cases owns

variable [DecidableEq Key]

/-- A call of a command that holds no mutex yet. -/
theorem Serialized.wait (serialized : Serialized shared mutex run own start s serial)
    (sound : shared.Sound handler) (busy : s.jobs client = some ⟨command, op, next⟩) {key : Key}
    (owns : own command = some key) (guarded : shared.Guarded mutex key (.call op next))
    (runs : ∀ d, shared.Runs (run command) d (.call op next) d)
    (empty : ∀ key, s.holder key ≠ some client)
    (applied : (mutex op).apply s.holder client = some holder)
    (others : ∀ other, other ≠ client → ∀ key, holder key = some other ↔ s.holder key = some other) :
    Serialized shared mutex run own start
      ({ s with state := (handler op s.state).2, holder }.settle client command
        (next (handler op s.state).1)) serial := by
  obtain ⟨good, does⟩ := sound op s.state serialized.good
  have blind : shared.Blind op := by
    cases guarded with
    | call _ blind _ => exact blind
    | acquire _ blind _ => exact blind
  obtain ⟨same, anywhere⟩ := blind _ _ _ does
  have runs' : ∀ d, shared.Runs (run command) d (next (handler op s.state).1) d := fun d =>
    (runs d).step (anywhere d)
  refine serialized.settle good (same ▸ serialized.valid) serialized.serialValid
    (serialized.log.answered (fun reply ended => Or.inr ⟨key, owns, ended ▸ runs' serial⟩)
      fun _ => rfl) (fun held holds _ => ?_) others
    (fun _ _ _ _ => ⟨rfl, by rw [same]⟩) fun key' _ released => ?_
  · cases guarded with
    | call aside _ rest =>
        rw [aside] at applied
        obtain rfl := Option.some_inj.mp applied
        have nothing : held = none := by
          rw [Option.eq_none_iff_forall_not_mem]
          exact fun key locked => empty key ((holds key).mpr locked)
        subst nothing
        exact .waiting owns (rest _) runs'
    | acquire takes _ inside =>
        rw [takes, MutexUse.apply] at applied
        split_ifs at applied with taken
        obtain rfl := Option.some_inj.mp applied
        obtain rfl : held = some key := (holds key).mp (Function.update_self _ _ _)
        refine .inside owns (inside _) fun d valid agrees => ⟨d, runs' d, ⟨valid, fun _ _ => rfl⟩, ?_⟩
        -- Nobody has held the mutex until now.
        rw [same, agrees]
        refine (serialized.free key fun other _ _ _ held => taken ?_).symm
        rw [held]
        rfl
  · rw [same]
    exact serialized.unowned busy (fun _ => empty key') released

/-- A call of a command that holds the mutex of its key. -/
theorem Serialized.work (serialized : Serialized shared mutex run own start s serial)
    (sound : shared.Sound handler) (busy : s.jobs client = some ⟨command, op, next⟩) {key : Key}
    (owns : own command = some key) (held : s.holder key = some client)
    (on : shared.On key op next) (rest : ∀ answer, shared.Inside mutex key (next answer))
    (underway : shared.Underway (run command) key serial (shared.view s.state) (.call op next))
    (holds : ∀ other, s.holder other = some client → other = key) :
    Serialized shared mutex run own start
      ({ s with state := (handler op s.state).2 }.settle client command
        (next (handler op s.state).1)) serial := by
  obtain ⟨good, does⟩ := sound op s.state serialized.good
  have ongoing : ∀ reply, next (handler op s.state).1 ≠ .done reply := fun reply ended => by
    have inside := rest (handler op s.state).1
    rw [ended] at inside
    cases inside
  have only := (on _ _ _ _ serialized.valid serialized.valid rfl does).1
  refine serialized.settle good only.valid serialized.serialValid
    (serialized.log.answered (fun reply ended => absurd ended (ongoing reply)) fun _ => rfl)
    (fun held' holds' _ => ?_) (fun _ _ _ => Iff.rfl) (fun other key' differs held' => ?_)
    fun key' released others => ?_
  · obtain rfl : held' = some key := (holds' key).mp held
    refine .inside owns (rest _) fun d valid agrees => ?_
    obtain ⟨after, runs, before, current⟩ := underway d valid agrees
    obtain ⟨_, answer', after', does', goes, only', ends⟩ :=
      on _ _ _ _ serialized.valid before.valid current does
    exact ⟨after', goes ▸ runs.step does', before.trans only', ends⟩
  · refine ⟨rfl, only.others key' fun same => ?_⟩
    rw [same, held, Option.some_inj] at held'
    exact differs held'.symm
  · by_cases same : key' = key
    · subst same
      exact absurd held (released ongoing owns)
    · rw [only.others key' same]
      exact serialized.unowned busy (fun _ held' => same (holds key' held')) others

/-- The end of a command that has held the mutex of its key. -/
theorem Serialized.release (serialized : Serialized shared mutex run own start s serial)
    (sound : shared.Sound handler) (busy : s.jobs client = some ⟨command, op, next⟩) {key : Key}
    (owns : own command = some key) (blind : shared.Blind op) {reply : Reply}
    (ends : ∀ answer, next answer = .done reply)
    (underway : shared.Underway (run command) key serial (shared.view s.state) (.call op next))
    (held : s.holder key = some client) (holds : ∀ other, s.holder other = some client → other = key)
    (others : ∀ other, other ≠ client → ∀ key, holder key = some other ↔ s.holder key = some other) :
    ∃ serial', Serialized shared mutex run own start
      ({ s with state := (handler op s.state).2, holder }.settle client command
        (next (handler op s.state).1)) serial' := by
  obtain ⟨good, does⟩ := sound op s.state serialized.good
  obtain ⟨same, anywhere⟩ := blind _ _ _ does
  obtain ⟨after, runs, only, current⟩ := underway serial serialized.serialValid rfl
  refine ⟨after, serialized.settle good (same ▸ serialized.valid) only.valid
    (serialized.log.answered (fun reply' ended => Or.inr ⟨key, owns, ?_⟩) fun ongoing =>
      absurd (ends _) (ongoing reply))
    (fun _ _ ongoing => absurd (ends _) (ongoing reply)) others
    (fun other key' differs held' => ⟨only.others key' fun own => ?_, by rw [same]⟩)
    fun key' _ released => ?_⟩
  · rw [← ended]
    exact runs.step (anywhere after)
  · rw [own, held, Option.some_inj] at held'
    exact differs held'.symm
  · rw [same]
    by_cases own : key' = key
    · rw [own, current]
    · rw [only.others key' own]
      exact serialized.unowned busy (fun _ held' => own (holds key' held')) released

theorem Serialized.call (serialized : Serialized shared mutex run own start s serial)
    (sound : shared.Sound handler) {held : Option Key}
    (busy : s.jobs client = some ⟨command, op, next⟩)
    (holds : ∀ key, s.holder key = some client ↔ held = some key)
    (turns : (mutex op).Turns held ((mutex op).turn held))
    (applied : (mutex op).apply s.holder client = some holder) :
    ∃ serial', Serialized shared mutex run own start
      ({ s with state := (handler op s.state).2, holder }.settle client command
        (next (handler op s.state).1)) serial' := by
  have others := fun other (differs : other ≠ client) => turns.others differs applied holds
  cases serialized.stage client _ held busy holds with
  | reading free quiet => exact ⟨serial, serialized.read sound busy free quiet others⟩
  | waiting owns guarded runs =>
      have empty : ∀ key, s.holder key ≠ some client := fun key held => by
        cases (holds key).mp held
      exact ⟨serial, serialized.wait sound busy owns guarded runs empty applied others⟩
  | @inside key owns inside underway =>
      have mine := (holds key).mpr rfl
      have sole : ∀ other, s.holder other = some client → other = key := fun other held =>
        (Option.some_inj.mp ((holds other).mp held)).symm
      cases inside with
      | call aside on rest =>
          rw [aside] at applied
          obtain rfl := Option.some_inj.mp applied
          exact ⟨serial, serialized.work sound busy owns mine on rest underway sole⟩
      | release _ blind ends => exact serialized.release sound busy owns blind ends underway mine sole others

end Calling

/-- Clients whose commands hold the mutexes of their keys leave what the log leaves when its commands
run one after another. -/
theorem Shared.Locking.serialized [DecidableEq Key]
    (locking : shared.Locking mutex fails handler run own admits)
    {rule : System sig σ Key Client Cmd Reply → Client → Move Cmd → Prop} {state : σ}
    (good : shared.good state) (valid : shared.valid (shared.view state))
    (admitted : ∀ s client command, rule s client (.ask command) → admits command)
    (reached : Interleaving.Reached (System.step mutex handler run) rule (System.opened state) s) :
    ∃ serial, Serialized shared mutex run own (shared.view state) s serial := by
  have discipline := lockDiscipline (σ := σ) locking.never locking.keeps
  have kept := reached.invariant (fun s => Watched (lockNotes mutex fails σ Cmd Reply) s ∧
      ∃ serial, Serialized shared mutex run own (shared.view state) s serial)
    ⟨watched_opened state, _, serialized_opened good valid⟩ fun s client move after before allowed moved => by
      obtain ⟨watched, serial, serialized⟩ := before
      refine ⟨discipline.step watched
        (fun command asked => admitted s client command (asked ▸ allowed)) moved, ?_⟩
      cases move with
      | ask command =>
          obtain ⟨idle, rfl⟩ := System.step_ask moved
          exact ⟨serial, serialized.ask locking (admitted s client command allowed) idle
            fun key => watched.idle client key idle⟩
      | call =>
          obtain ⟨job, holder, busy, applied, rfl⟩ := System.step_call moved
          obtain ⟨held, noted⟩ := watched.busy client job busy
          obtain ⟨allowed, _⟩ := discipline.calls noted
          exact serialized.call locking.sound busy noted.held allowed applied
  exact kept.2

end Serializing

end Clients
