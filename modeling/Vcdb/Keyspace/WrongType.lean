import Vcdb.Keyspace.ExpiryRun

/-!
# Keys of the wrong type

A request that finds its key live with another type reports an error and leaves every record as it
was.  MSET, which reads each of its keys before it writes any, forgets the expiries of the keys
before the refused one, in memory only.
-/

namespace Vcdb

/-- A key of the request is live with a type that the request cannot work on, or its metadata
cannot be read. -/
def Request.Mistyped (db : DB) : Request → Prop
  | value command => ¬command.Unread ∧
      ∃ type version, db.life command.key = .live type version ∧ type ≠ command.type
  | set key _ _ | setnx key _ | setex key _ _ | psetex key _ _ | getset key _ => HoldsOther db key
  | mset kvs => ∃ kv ∈ kvs, HoldsOther db kv.1
  | _ => False

/-- The keys whose expiries a refused request forgets in memory. -/
def Request.forgets (db : DB) : Request → List Bytes
  | mset kvs => msetDropped db kvs
  | _ => []

section Refusals

variable {world : World} {key : Bytes}

/-- A command that fails before it changes anything. -/
def Refuses {α : Type} (abort : α → Prop) (command : Command α) (world : World) : Prop :=
  ∃ result, abort result ∧ command.eval atomically world = (result, world)

theorem refuses_set (holds : HoldsOther world.db key) (val : Bytes) (flags : SetFlags)
    (ttl : Int64) : Refuses (·.1 < 0) (Kv.set key val flags ttl) world := by
  have negative := holdsOther_iff.mp holds
  have invalid : invalidExTime < 0 := by decide
  rw [Refuses, Kv.set, eval_recordKeyLock, setNoLock, Program.eval_bind, setGeneric]
  by_cases early : (flags.ex ∨ flags.px) ∧ ttl ≤ 0
  · refine ⟨(invalidExTime, 0), invalid, ?_⟩
    simp only [if_pos early, Program.pure_eq_done, Program.eval_done, if_pos invalid]
  · refine ⟨((kvRead (world.db.get (encodeMetaKey key))).1, 0), negative, ?_⟩
    simp only [if_neg early, Program.eval_bind, eval_getKvMetaVal, if_pos negative,
      Program.pure_eq_done, Program.eval_done]

/-- What reports the code of a refused SET. -/
theorem Refuses.report {set : Command (Int × Int)} (refused : Refuses (·.1 < 0) set world)
    (next : Int × Int → Command Reply) :
    Refuses Reply.IsError (set >>= fun result =>
      if result.1 < 0 then return .error result.1 else next result) world := by
  obtain ⟨result, negative, run⟩ := refused
  refine ⟨.error result.1, trivial, ?_⟩
  simp only [Program.eval_bind, run, if_pos negative]
  rfl

theorem refuses_setWithOptions (holds : HoldsOther world.db key) (val : Bytes)
    (options : SetOptions) :
    Refuses Reply.IsError (setWithOptions key val options) world := by
  rw [setWithOptions]
  cases convert2ms options.ttl options.unit with
  | error code => exact ⟨.error code, trivial, rfl⟩
  | ok ttl => exact (refuses_set holds val options.flags ttl).report _

theorem refuses_procSet (holds : HoldsOther world.db key) (val : Bytes) (words : List Bytes) :
    Refuses Reply.IsError (procSet key val words) world := by
  rw [procSet]
  cases setOptions words {} with
  | error code => exact ⟨.error code, trivial, rfl⟩
  | ok options => exact refuses_setWithOptions holds val options

theorem refuses_setExpiring (holds : HoldsOther world.db key) (unit : TimeUnit) (flags : SetFlags)
    (argument val : Bytes) :
    Refuses Reply.IsError (setExpiring unit flags key argument val) world := by
  rw [setExpiring]
  cases int64Argument argument with
  | none => exact ⟨.error invalidInt, trivial, rfl⟩
  | some ttl =>
      simp only
      split_ifs with elapsed
      · exact ⟨.error invalidExTime, trivial, rfl⟩
      · cases convert2ms ttl unit with
        | error code => exact ⟨.error code, trivial, rfl⟩
        | ok ttl => exact (refuses_set holds val flags ttl).report _

theorem refuses_procGetset (holds : HoldsOther world.db key) (val : Bytes) :
    Refuses Reply.IsError (procGetset key val) world := by
  have negative := holdsOther_iff.mp holds
  refine ⟨.error (kvRead (world.db.get (encodeMetaKey key))).1, trivial, ?_⟩
  rw [procGetset, Program.eval_bind, getset, eval_recordKeyLock]
  simp only [Program.eval_bind, eval_getKvMetaVal, if_pos negative]
  rfl

theorem eval_procMset_refused (kvs : List (Bytes × Bytes))
    (holds : ∃ kv ∈ kvs, HoldsOther world.db kv.1) :
    ∃ code, (procMset kvs).eval atomically world = (.error code, { world with
      expiration := dropFastKeys (msetDropped world.db kvs) world.expiration }) := by
  obtain ⟨code, after, negative, run, _⟩ := eval_multiSetLoop_refused kvs world [] [] 0 holds
  have dropped := eval_multiSetLoop_drops kvs world [] [] 0
  rw [run] at dropped
  have given : kvs ≠ [] := by
    rintro rfl
    obtain ⟨_, mem, _⟩ := holds
    cases mem
  refine ⟨code, ?_⟩
  rw [← dropped, procMset, if_neg given, multiSet]
  simp only [Program.eval_bind, run, Program.pure_eq_done, Program.eval_done, if_pos negative]

end Refusals

/-- A request that meets a key of another type. -/
theorem Request.mistyped_refused (floats : Floats) (world : World) {request : Request}
    (mistyped : request.Mistyped world.db) :
    ((request.run floats).eval atomically world).1.IsError ∧
      ((request.run floats).eval atomically world).2.db = world.db ∧
      ((request.run floats).eval atomically world).2.expiration =
        dropFastKeys (request.forgets world.db) world.expiration := by
  have refused : ∀ command : Command Reply, Refuses Reply.IsError command world →
      (command.eval atomically world).1.IsError ∧
        (command.eval atomically world).2.db = world.db ∧
        (command.eval atomically world).2.expiration = world.expiration := by
    rintro command ⟨reply, failed, run⟩
    rw [run]
    exact ⟨failed, rfl, rfl⟩
  cases request with
  | value command =>
      obtain ⟨read, type, version, live, other⟩ := mistyped
      exact ((command.writesValue floats read).deed world).2 type version live other
  | set key val options => exact refused _ (refuses_procSet mistyped val options)
  | setnx key val => exact refused _ ((refuses_set mistyped val _ 0).report _)
  | setex key seconds val => exact refused _ (refuses_setExpiring mistyped _ _ seconds val)
  | psetex key millis val => exact refused _ (refuses_setExpiring mistyped _ _ millis val)
  | getset key val => exact refused _ (refuses_procGetset mistyped val)
  | mset kvs =>
      obtain ⟨code, run⟩ := eval_procMset_refused kvs mistyped
      rw [Request.run, run]
      exact ⟨trivial, rfl, rfl⟩
  | del | expire | pexpire | expireat | pexpireat | persist => exact mistyped.elim

/-- A store with one hash. -/
def oneHash : World :=
  (((HashCommand.hset [107] [102] [118]).run).eval atomically freshWorld).2

theorem mistyped_refused_sample :
    (((Request.set [107] [118] []).run sampleFloats).eval atomically oneHash).1.IsError ∧
      (((Request.set [107] [118] []).run sampleFloats).eval atomically oneHash).2.db = oneHash.db ∧
      (((Request.set [107] [118] []).run sampleFloats).eval atomically oneHash).2.expiration =
        oneHash.expiration :=
  Request.mistyped_refused sampleFloats oneHash
    (holdsOther_iff.mpr (by decide +kernel : (kvRead (oneHash.db.get (encodeMetaKey [107]))).1 < 0))

end Vcdb
