import Vcdb.Util.RecordRun

/-!
# The lock of all keys

Whoever locks all keys closes the gate and waits until no record is left.  A thread that has passed
the gate but has not found its record yet is missed by that.
-/

namespace Vcdb.RecordMutex

open Interleaving

variable {Thread : Type} [Fintype Thread] [DecidableEq Thread] {kEstimatePairSize : ℕ+}
  {s after : State Thread} {thread : Thread}

/-- A usage of zero is read only while no thread is between the gate and `mutex_`. -/
def Unmissed (s : State Thread) (thread : Thread) (_ : Event) : Prop :=
  (s.threads thread).phase = .readUsage → s.charge = 0 →
    ∀ other key, (s.threads other).phase ≠ .lockKeyInternal key

/-- The thread has passed the gate on its way to a key, or is on its way back. -/
def Phase.inside : Phase → Bool
  | .outside | .lock _ | .lockAll | .getUsage | .readUsage | .usage _ => false
  | _ => true

theorem Phase.inside_of_holder {phase : Phase} {key : Bytes} (holds : phase.holder = some key) :
    phase.inside = true := by
  cases phase <;> cases holds <;> rfl

/-- The usage that the thread has read and is about to test. -/
def Phase.tested : Phase → Option Int
  | .usage size => some size
  | _ => none

/-- The thread has nothing to do with any key. -/
def Owner.Quiet (owner : Owner) : Prop := owner.held = [] ∧ owner.phase.inside = false

/-- The thread has locked all keys, or is about to return from that. -/
def Owner.Excludes (owner : Owner) : Prop :=
  owner.flushing = true ∨ ∃ size ≤ 0, owner.phase = .usage size

/-- While a thread has locked all keys the others are quiet. -/
def Shut (s : State Thread) : Prop :=
  ∀ thread, (s.threads thread).Excludes → ∀ other, (s.threads other).Quiet

namespace Invariant

theorem pastGate_of_excludes {owner : Owner} (excludes : owner.Excludes) : 0 < owner.pastGate := by
  rcases excludes with flushing | ⟨size, _, phase⟩
  · rw [Owner.pastGate, flushing]
    exact Nat.add_pos_right _ Nat.one_pos
  · rw [Owner.pastGate, phase]
    exact Nat.add_pos_left Nat.one_pos _

omit [DecidableEq Thread] in
theorem charge_nonneg (inv : Invariant kEstimatePairSize s) : 0 ≤ s.charge := by
  rw [inv.charge]
  refine Finset.sum_nonneg fun key _ => ?_
  rw [State.pairCharge]
  exact Int.add_nonneg (Int.natCast_nonneg _) (Int.natCast_nonneg _)

/-- When a usage of zero is read and no thread is missed, all threads are quiet. -/
theorem quiet_of_readUsage (inv : Invariant kEstimatePairSize s)
    (phase : (s.threads thread).phase = .readUsage) (zero : s.charge = 0)
    (unmissed : ∀ other key, (s.threads other).phase ≠ .lockKeyInternal key) (other : Thread) :
    (s.threads other).Quiet := by
  have unused : ∀ key, (s.threads other).uses key = 0 := fun key =>
    total_eq_zero.mp (inv.absent key (inv.charge_eq_zero.mp zero key)) other
  refine ⟨List.eq_nil_iff_forall_not_mem.mpr fun key mem => ?_, ?_⟩
  · have counts : 0 < (s.threads other).held.count key := List.count_pos_iff.mpr mem
    have none := unused key
    rw [Owner.uses] at none
    omega
  by_cases same : other = thread
  · rw [same, phase]
    rfl
  have under : (s.threads thread).phase.underMutex = true := by rw [phase]; rfl
  have away := inv.alone under same
  have idle : ∀ key, (s.threads other).phase.user ≠ some key := by
    intro key user
    have none := unused key
    rw [Owner.uses, if_pos user] at none
    exact absurd none (Nat.succ_ne_zero _)
  have closed : (s.threads other).phase.pastGate = false := by
    by_contra past
    rw [Bool.not_eq_false] at past
    have one : total Owner.pastGate s.threads ≤ 1 := by
      rw [inv.gate]
      exact Bool.toNat_le _
    refine same (eq_of_total_le_one one ?_ ?_)
    · rw [Owner.pastGate, past]
      exact Nat.add_pos_left Nat.one_pos _
    · rw [Owner.pastGate, phase]
      exact Nat.add_pos_left Nat.one_pos _
  cases here : (s.threads other).phase with
  | outside | lock _ | lockAll | getUsage | readUsage | usage _ => rfl
  | passGate key => rw [here] at closed; cases closed
  | lockKeyInternal key => exact absurd here (unmissed other key)
  | awaitRecord key ref => exact absurd (by rw [here]; rfl) (idle key)
  | unlock key => exact absurd (by rw [here]; rfl) (idle key)
  | findRecord _ | leaveRecords _ _ | isLastRef _ | refUnlock _ _ | unref _ _ | unlocked =>
      rw [here] at away
      cases away

end Invariant

/-- What a step makes of its thread: it comes to exclude the others by reading a usage of zero only,
and behind a closed gate it stays quiet. -/
structure Turns (s : State Thread) (old new : Owner) : Prop where
  excludes : new.Excludes → old.Excludes ∨ (old.phase = .readUsage ∧ s.charge ≤ 0)
  quiet : s.gMutex = true → old.Quiet → new.Quiet

omit [Fintype Thread] [DecidableEq Thread] in
/-- A step to a phase other than the test of a usage. -/
theorem turns_of_phase {owner : Owner} {phase : Phase} (held : List Bytes)
    (other : phase.tested = none)
    (quiet : s.gMutex = true → owner.Quiet → held = [] ∧ phase.inside = false) :
    Turns s owner { owner with phase, held } where
  excludes := by
    rintro (flushing | ⟨size, _, same⟩)
    · exact Or.inl (Or.inl flushing)
    · rw [show phase = .usage size from same] at other
      cases other
  quiet := quiet

omit [Fintype Thread] [DecidableEq Thread] in
theorem not_quiet {owner : Owner} {phase : Phase} (here : owner.phase = phase)
    (inside : phase.inside = true) : ¬owner.Quiet := by
  rintro ⟨_, outside⟩
  rw [here, inside] at outside
  cases outside

omit [Fintype Thread] in
theorem advance_turns {fresh : Address}
    (moved : s.advance kEstimatePairSize thread fresh = some after) :
    ∃ owner, after.threads = Function.update s.threads thread owner ∧
      Turns s (s.threads thread) owner := by
  unfold State.advance at moved
  cases phase : (s.threads thread).phase with
  | outside => simp [phase] at moved
  | lock key | lockAll =>
      simp only [phase] at moved
      split_ifs at moved with locked
      rw [← Option.some.inj moved]
      exact ⟨_, rfl, turns_of_phase _ rfl fun closed => absurd closed locked⟩
  | lockKeyInternal key | unlock key =>
      simp only [phase] at moved
      split_ifs at moved with locked
      rw [← Option.some.inj moved]
      exact ⟨_, rfl, turns_of_phase _ rfl fun _ quiet => absurd quiet (not_quiet phase rfl)⟩
  | passGate key | leaveRecords key ref | unlocked =>
      simp only [phase] at moved
      rw [← Option.some.inj moved]
      exact ⟨_, rfl, turns_of_phase _ rfl fun _ quiet => absurd quiet (not_quiet phase rfl)⟩
  | findRecord key =>
      have noisy := not_quiet phase rfl
      simp only [phase, State.findRecord] at moved
      cases found : s.records.get key with
      | none =>
          simp only [found] at moved
          split_ifs at moved with allocated
          rw [← Option.some.inj moved]
          exact ⟨_, rfl, turns_of_phase _ rfl fun _ quiet => absurd quiet noisy⟩
      | some ref =>
          simp only [found] at moved
          obtain ⟨record, _, rfl⟩ := Option.map_eq_some_iff.mp moved
          exact ⟨_, rfl, turns_of_phase _ rfl fun _ quiet => absurd quiet noisy⟩
  | awaitRecord key ref =>
      simp only [phase] at moved
      cases here : s.heap ref with
      | none => simp [here] at moved
      | some record =>
          simp only [here] at moved
          split_ifs at moved with locked
          rw [← Option.some.inj moved]
          exact ⟨_, rfl, turns_of_phase _ rfl fun _ quiet => absurd quiet (not_quiet phase rfl)⟩
  | isLastRef key =>
      have noisy := not_quiet phase rfl
      simp only [phase, State.isLastRef] at moved
      cases found : s.records.get key with
      | none =>
          simp only [found] at moved
          rw [← Option.some.inj moved]
          exact ⟨_, rfl, turns_of_phase _ rfl fun _ quiet => absurd quiet noisy⟩
      | some ref =>
          simp only [found] at moved
          obtain ⟨record, _, rfl⟩ := Option.map_eq_some_iff.mp moved
          refine ⟨{ s.threads thread with phase := .refUnlock key ref }, ?_,
            turns_of_phase _ rfl fun _ quiet => absurd quiet noisy⟩
          split_ifs <;> rfl
  | refUnlock key ref | unref key ref =>
      simp only [phase] at moved
      obtain ⟨record, _, rfl⟩ := Option.map_eq_some_iff.mp moved
      exact ⟨_, rfl, turns_of_phase _ rfl fun _ quiet => absurd quiet (not_quiet phase rfl)⟩
  | getUsage =>
      simp only [phase] at moved
      split_ifs at moved with locked
      rw [← Option.some.inj moved]
      exact ⟨_, rfl, turns_of_phase _ rfl fun _ quiet => ⟨quiet.1, rfl⟩⟩
  | readUsage =>
      simp only [phase] at moved
      rw [← Option.some.inj moved]
      refine ⟨{ s.threads thread with phase := .usage s.charge }, rfl, fun excludes => ?_,
        fun _ quiet => ⟨quiet.1, rfl⟩⟩
      rcases excludes with flushing | ⟨size, empty, same⟩
      · exact Or.inl (Or.inl flushing)
      · cases same
        exact Or.inr ⟨phase, empty⟩
  | usage size =>
      simp only [phase] at moved
      split_ifs at moved with positive
      · rw [← Option.some.inj moved]
        exact ⟨_, rfl, turns_of_phase _ rfl fun _ quiet => ⟨quiet.1, rfl⟩⟩
      · rw [← Option.some.inj moved]
        exact ⟨_, rfl, fun _ => Or.inl (Or.inr ⟨size, not_lt.mp positive, phase⟩),
          fun _ quiet => ⟨quiet.1, rfl⟩⟩

omit [Fintype Thread] in
theorem step_turns {event : Event} (moved : s.step kEstimatePairSize thread event = some after) :
    ∃ owner, after.threads = Function.update s.threads thread owner ∧
      Turns s (s.threads thread) owner := by
  cases event with
  | advance fresh => exact advance_turns moved
  | lock key | lockAll =>
      simp only [State.step] at moved
      split_ifs at moved with phase
      rw [← Option.some.inj moved]
      exact ⟨_, rfl, turns_of_phase _ rfl fun _ quiet => ⟨quiet.1, rfl⟩⟩
  | unlock key =>
      simp only [State.step] at moved
      split_ifs at moved with called
      rw [← Option.some.inj moved]
      refine ⟨_, rfl, turns_of_phase _ rfl fun _ quiet => ?_⟩
      rw [quiet.1] at called
      cases called.2
  | unlockAll =>
      simp only [State.step] at moved
      split_ifs at moved with called
      rw [← Option.some.inj moved]
      refine ⟨{ s.threads thread with flushing := false }, rfl, fun _ => ?_, fun _ quiet => quiet⟩
      exact Or.inl (Or.inl called.2)

/-- Who has locked all keys has them for itself as long as nobody is missed. -/
theorem shut_of_reached (reached : Reached (State.step kEstimatePairSize) Unmissed {} s) :
    Invariant kEstimatePairSize s ∧ Shut s := by
  refine reached.invariant (fun s => Invariant kEstimatePairSize s ∧ Shut s)
    ⟨invariant_initial, ?_⟩ ?_
  · rintro thread (flushing | ⟨size, _, phase⟩)
    · cases flushing
    · cases phase
  · intro s thread event after ⟨inv, shut⟩ unmissed moved
    refine ⟨inv.step moved, fun owner excludes other => ?_⟩
    obtain ⟨next, threads, turns⟩ := step_turns moved
    have closed : (∃ owner, (s.threads owner).Excludes) → s.gMutex = true := fun ⟨owner, before⟩ =>
      (inv.gMutex_of_pastGate (Invariant.pastGate_of_excludes before)).1
    have quiet : (s.gMutex = true ∧ ∀ other, (s.threads other).Quiet) := by
      have already : (∃ owner, (s.threads owner).Excludes) →
          s.gMutex = true ∧ ∀ other, (s.threads other).Quiet := fun before =>
        ⟨closed before, fun other => before.elim fun owner excludes => shut owner excludes other⟩
      rw [threads] at excludes
      by_cases same : owner = thread
      · rw [same, Function.update_self] at excludes
        rcases turns.excludes excludes with before | ⟨phase, empty⟩
        · exact already ⟨thread, before⟩
        · have zero : s.charge = 0 := le_antisymm empty inv.charge_nonneg
          have past : 0 < (s.threads thread).pastGate := by
            rw [Owner.pastGate, phase]
            exact Nat.add_pos_left Nat.one_pos _
          exact ⟨(inv.gMutex_of_pastGate past).1,
            inv.quiet_of_readUsage phase zero (unmissed phase zero)⟩
      · rw [Function.update_of_ne same] at excludes
        exact already ⟨owner, excludes⟩
    rw [threads]
    by_cases same : other = thread
    · rw [same, Function.update_self]
      exact turns.quiet quiet.1 (quiet.2 thread)
    · rw [Function.update_of_ne same]
      exact quiet.2 other

/-- As long as no thread is missed, nobody holds a key while a thread has locked all keys. -/
theorem lockAll_excludes_locks
    (reached : Reached (State.step kEstimatePairSize) Unmissed {} s) :
    ∀ owner, (s.threads owner).flushing = true → ∀ other key, ¬s.Holds other key := by
  intro owner flushing other key
  obtain ⟨held, outside⟩ := (shut_of_reached reached).2 owner (Or.inl flushing) other
  rintro (mem | holder)
  · rw [held] at mem
    cases mem
  · rw [Phase.inside_of_holder holder] at outside
    cases outside

section Samples

/-- One thread locks all keys while the other one has not started. -/
theorem lockAll_excludes_alone :
    ∃ s : State Bool, (s.threads true).flushing = true ∧
      ∀ owner, (s.threads owner).flushing = true → ∀ other key, ¬s.Holds other key := by
  have idle : ∀ (s : State Bool) thread event,
      (s.threads true).phase.inside = false → (s.threads false).phase.inside = false →
        Unmissed s thread event := by
    intro s thread event first second _ _ other key phase
    cases other <;> simp_all [Phase.inside]
  have reached : Reached (State.step 80) Unmissed ({} : State Bool) _ :=
    .next (.next (.next (.next (.next .initial (idle _ true .lockAll rfl rfl) rfl)
      (idle _ true (.advance 0) rfl rfl) rfl) (idle _ true (.advance 0) rfl rfl) rfl)
      (idle _ true (.advance 0) rfl rfl) rfl) (idle _ true (.advance 0) rfl rfl) rfl
  exact ⟨_, rfl, lockAll_excludes_locks reached⟩

/-- One thread passes the gate, the other one locks all keys, and the first one goes on. -/
def missed : List (Bool × Event) :=
  (false, .lock [107]) :: List.replicate 2 (false, .advance 0) ++
    (true, .lockAll) :: List.replicate 4 (true, .advance 0) ++
      List.replicate 4 (false, .advance 0)

theorem lockAll_admits_missed :
    ∃ s : State Bool, Reached (State.step 80) (fun _ _ _ => True) {} s ∧
      (s.threads true).flushing = true ∧ s.Holds false [107] := by
  have seen : (runSchedule (State.step 80) missed ({} : State Bool)).map
      (fun s => ((s.threads true).flushing, (s.threads false).held)) = some (true, [[107]]) := by
    decide
  obtain ⟨s, ran, seen⟩ := Option.map_eq_some_iff.mp seen
  obtain ⟨flushing, held⟩ := Prod.mk.inj seen
  refine ⟨s, reached_of_runSchedule .initial ran, flushing, Or.inl ?_⟩
  rw [held]
  exact List.mem_singleton.mpr rfl

end Samples

end Vcdb.RecordMutex
