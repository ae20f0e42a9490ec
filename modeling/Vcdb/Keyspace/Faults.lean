import Vcdb.Keyspace.ExpiryRun

/-!
# Failing reads and commits

The engine may fail to answer a read of the live store, or to commit a batch.  A command that works
on a value then either ends as if nothing had failed, or reports an error and leaves the store as it
was.
-/

namespace Vcdb

/-- What has failed. -/
inductive Fault
  | read (raw : Bytes)
  | commit
deriving DecidableEq

/-- An engine that may fail. -/
structure FaultyWorld where
  world : World
  /-- Whether the next reads and commits fail. -/
  faults : Nat → Bool
  failed : List Fault := []

namespace FaultyWorld

/-- The next read or commit fails. -/
def fail (state : FaultyWorld) (fault : Fault) : FaultyWorld :=
  { state with faults := fun n => state.faults (n + 1), failed := fault :: state.failed }

/-- The next operation succeeds. -/
def carryOut (state : FaultyWorld) (op : StorageOp) : op.Answer × FaultyWorld :=
  ((atomically op state.world).1,
    { state with world := (atomically op state.world).2, faults := fun n => state.faults (n + 1) })

end FaultyWorld

/-- The operations on an engine that may fail. -/
def faulty : Program.Handler storage FaultyWorld
  | .get raw, state =>
      if state.faults 0 then (.error, state.fail (.read raw)) else state.carryOut (.get raw)
  | .write batch, state =>
      if state.faults 0 then (false, state.fail .commit) else state.carryOut (.write batch)
  | op, state => state.carryOut op

/-- A failure that a command may not pass over: all but reads of the expiry that it is about to end,
and of items when it is careless. -/
def Fault.Fatal (key : Bytes) (careful : Bool) : Fault → Prop
  | read raw => raw ≠ encodeEsetKey key ∧ (raw = encodeMetaKey key ∨ careful)
  | commit => True

section Runs

variable {key : Bytes} {careful : Bool} {start : World} {watch : Watch} {state : FaultyWorld}

/-- What has been noted of a run in which nothing fatal has failed. -/
structure Watch.Survives (key : Bytes) (careful : Bool) (start : World) (watch : Watch)
    (state : FaultyWorld) : Prop where
  db : state.world.db = (watch.committed.getD []).apply start.db
  expiration : state.world.expiration =
    if watch.dropped then start.expiration.delFastKey key else start.expiration
  harmless : ∀ fault ∈ state.failed, ¬fault.Fatal key careful

/-- What is left when something fatal has failed. -/
structure Untainted (key : Bytes) (start : World) (state : FaultyWorld) : Prop where
  db : state.world.db = start.db
  expiration : state.world.expiration = start.expiration ∨
    .commit ∈ state.failed ∧ state.world.expiration = start.expiration.delFastKey key

theorem faulty_quiet {op : StorageOp} (quiet : Watch.Quiet op) (state : FaultyWorld) :
    (faulty op state).2.world.db = state.world.db ∧
      (faulty op state).2.world.expiration = state.world.expiration ∧
      ∀ fault ∈ state.failed, fault ∈ (faulty op state).2.failed := by
  cases op with
  | get raw =>
      rw [faulty]
      split_ifs
      · exact ⟨rfl, rfl, fun fault mem => List.mem_cons_of_mem _ mem⟩
      · exact ⟨rfl, rfl, fun fault mem => mem⟩
  | write | insertFastKey | delFastKey | newCursor => exact quiet.elim
  | _ => exact ⟨rfl, rfl, fun fault mem => mem⟩

theorem Untainted.quiet {op : StorageOp} (quiet : Watch.Quiet op)
    (untainted : Untainted key start state) : Untainted key start (faulty op state).2 := by
  obtain ⟨db, expiration, kept⟩ := faulty_quiet quiet state
  refine ⟨db.trans untainted.db, ?_⟩
  rcases untainted.expiration with same | ⟨failed, dropped⟩
  · exact Or.inl (expiration.trans same)
  · exact Or.inr ⟨kept _ failed, expiration.trans dropped⟩

/-- A call that neither fails nor changes anything. -/
theorem Watch.Survives.same {state' : FaultyWorld} (survives : watch.Survives key careful start state)
    (db : state'.world.db = state.world.db)
    (expiration : state'.world.expiration = state.world.expiration)
    (failed : ∀ fault ∈ state'.failed, ¬fault.Fatal key careful) :
    watch.Survives key careful start state' :=
  ⟨db.trans survives.db, expiration.trans survives.expiration, failed⟩

/-- The read of a record. -/
theorem Watch.Survives.get {raw : Bytes} (allowed : watch.allows key (.get raw))
    (survives : watch.Survives key careful start state) :
    (watch.after key careful (.get raw) (faulty (.get raw) state).1 = none →
      Untainted key start (faulty (.get raw) state).2) ∧
    ∀ watch', watch.after key careful (.get raw) (faulty (.get raw) state).1 = some watch' →
      watch'.Survives key careful start (faulty (.get raw) state).2 := by
  obtain ⟨uncommitted, expiryRead⟩ := allowed
  have db := survives.db
  have expiration := survives.expiration
  have kept := survives.harmless
  rw [uncommitted] at db
  simp only [faulty, Watch.after]
  by_cases dropped : watch.dropped = true
  · -- A failing read of the expiry is passed over.
    simp only [if_pos dropped]
    refine ⟨fun fails => (by cases fails), fun watch' goes => ?_⟩
    obtain rfl := Option.some_inj.mp goes
    split_ifs
    · refine ⟨survives.db, survives.expiration, fun fault mem => ?_⟩
      rcases List.mem_cons.mp mem with rfl | before
      · exact fun fatal => fatal.1 (expiryRead dropped)
      · exact kept fault before
    · exact ⟨survives.db, survives.expiration, kept⟩
  · rw [if_neg dropped] at expiration
    simp only [if_neg dropped]
    by_cases fails : state.faults 0 = true
    · simp only [if_pos fails]
      by_cases strict : raw = encodeMetaKey key ∨ careful = true
      · simp only [if_pos strict]
        exact ⟨fun _ => ⟨db, Or.inl expiration⟩, fun _ goes => (by cases goes)⟩
      · simp only [if_neg strict]
        refine ⟨fun fails => (by cases fails), fun watch' goes => ?_⟩
        obtain rfl := Option.some_inj.mp goes
        refine survives.same rfl rfl fun fault mem => ?_
        rcases List.mem_cons.mp mem with rfl | before
        · exact fun fatal => strict fatal.2
        · exact kept fault before
    · simp only [if_neg fails, FaultyWorld.carryOut, atomically]
      have noted : ∀ metaVal, (if raw = encodeMetaKey key then
          { watch with metadata := some metaVal } else watch).Survives key careful start
          { state with faults := fun n => state.faults (n + 1) } := by
        intro metaVal
        split_ifs
        · exact ⟨survives.db, survives.expiration, kept⟩
        · exact ⟨survives.db, survives.expiration, kept⟩
      cases state.world.db.get raw with
      | none =>
          refine ⟨fun fails => (by cases fails), fun watch' goes => ?_⟩
          obtain rfl := Option.some_inj.mp goes
          exact noted none
      | some val =>
          refine ⟨fun fails => (by cases fails), fun watch' goes => ?_⟩
          obtain rfl := Option.some_inj.mp goes
          exact noted (some val)

/-- The commit of a batch. -/
theorem Watch.Survives.write {batch : WriteBatch} (uncommitted : watch.committed = none)
    (survives : watch.Survives key careful start state) :
    (watch.after key careful (.write batch) (faulty (.write batch) state).1 = none →
      Untainted key start (faulty (.write batch) state).2) ∧
    ∀ watch', watch.after key careful (.write batch) (faulty (.write batch) state).1 = some watch' →
      watch'.Survives key careful start (faulty (.write batch) state).2 := by
  have db := survives.db
  have expiration := survives.expiration
  rw [uncommitted] at db
  simp only [faulty, Watch.after]
  by_cases fails : state.faults 0 = true
  · simp only [if_pos fails]
    refine ⟨fun _ => ⟨db, ?_⟩, fun _ goes => (by cases goes)⟩
    split_ifs at expiration
    · exact Or.inr ⟨List.mem_cons_self, expiration⟩
    · exact Or.inl expiration
  · simp only [if_neg fails, FaultyWorld.carryOut, atomically]
    refine ⟨fun fails => (by cases fails), fun watch' goes => ?_⟩
    obtain rfl := Option.some_inj.mp goes
    refine ⟨?_, survives.expiration, survives.harmless⟩
    exact congrArg (WriteBatch.apply batch) db

/-- One call. -/
theorem Watch.Survives.step {op : StorageOp} (allowed : watch.allows key op)
    (survives : watch.Survives key careful start state) :
    (watch.after key careful op (faulty op state).1 = none →
      Untainted key start (faulty op state).2) ∧
    ∀ watch', watch.after key careful op (faulty op state).1 = some watch' →
      watch'.Survives key careful start (faulty op state).2 := by
  have same : ∀ next : Option Watch, next = some watch → ∀ state' : FaultyWorld,
      state'.world.db = state.world.db → state'.world.expiration = state.world.expiration →
      state'.failed = state.failed → (next = none → Untainted key start state') ∧
        ∀ watch', next = some watch' → watch'.Survives key careful start state' := by
    rintro _ rfl state' db expiration failed
    refine ⟨fun fails => (by cases fails), fun watch' goes => ?_⟩
    obtain rfl := Option.some_inj.mp goes
    exact survives.same db expiration (failed ▸ survives.harmless)
  cases op with
  | get raw => exact survives.get allowed
  | write batch => exact survives.write allowed.2.1
  | lock name | unlock name =>
      refine ⟨fun fails => (by cases fails), fun watch' goes => ?_⟩
      obtain rfl := Option.some_inj.mp goes
      exact ⟨survives.db, survives.expiration, survives.harmless⟩
  | delFastKey name =>
      obtain ⟨rfl, _, kept, _⟩ := allowed
      refine ⟨fun fails => (by cases fails), fun watch' goes => ?_⟩
      obtain rfl := Option.some_inj.mp goes
      have expiration := survives.expiration
      rw [kept] at expiration
      exact ⟨survives.db, congrArg (fun handler : ExpirationHandler => handler.delFastKey name)
        expiration, survives.harmless⟩
  | getAt snapshot raw =>
      exact same _ (if_neg (ReadStatus.ofOption_ne_error (snapshot.get raw))) _ rfl rfl rfl
  | insertFastKey | newCursor => exact allowed.elim
  | snapshot | timeMs | rand | firstTimeout | findCursor => exact same _ rfl _ rfl rfl rfl

end Runs

/-! ### Runs without failures -/

section Flawless

variable {α : Type}

end Flawless

end Vcdb
