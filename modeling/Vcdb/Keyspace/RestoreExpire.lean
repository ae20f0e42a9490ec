import Vcdb.Keyspace.ExpireTime
import Vcdb.Keyspace.RestoreSafety
import Vcdb.Proc.Kv
import Vcdb.Proc.Restore

/-!
# The instant a restored key expires at

A restored string and its expiry are committed together, any other value before its expiry.  A key
that is to be replaced is gone before its dump is looked at.
-/

namespace Vcdb

/-- What a dump is to a restore: it is refused as a whole, its elements are refused, it ends the
process, or it is written as a string, as a collection that exists, or without metadata. -/
inductive Dump
  | refused
  | unread
  | fatal
  | string
  | collection
  | empty

/-- What is written of an object whose elements are read to the end. -/
def RdbObject.written : RdbObject → Dump
  | string _ => .string
  | set (.ok []) | zset (.ok []) | hash (.ok []) => .empty
  | _ => .collection

def RdbObject.dump (object : RdbObject) : Dump :=
  match object.failure with
  | some (.code _) => .unread
  | some (.crash _) => .fatal
  | none => object.written

def Dump.ofBytes (runtime : Runtime) (data : Bytes) : Dump :=
  match verifyDumpPayload runtime data with
  | none => .refused
  | some body =>
      match loadDump runtime body with
      | .error (.code _) => .refused
      | .error (.crash _) => .fatal
      | .ok (object, _) => object.dump

section Reopening

variable {world : World} {key : Bytes}

theorem eval_eget_storedExpiry (world : World) (key : Bytes) :
    (eget key).eval atomically world =
      (((storedExpiry world.db key).elim (0, 0) fun ts => (1, ts)), world) := by
  have read : (dbGet (encodeEsetKey key)).eval atomically world =
      (ReadStatus.ofOption (world.db.get (encodeEsetKey key)), world) := rfl
  rw [eget, Program.eval_bind, read, storedExpiry]
  cases world.db.get (encodeEsetKey key) <;> rfl

/-- Forgetting an expiry leaves none, whatever else is updated along with it. -/
theorem eval_cancelExpiration_forgets (world : World) (key : Bytes) (batch : WriteBatch) :
    ∃ ret ops, (cancelExpiration key batch).eval atomically world =
        ((ret, batch ++ ops), world.delFastKey key) ∧ (∀ op ∈ ops, IsExpiry op.key) ∧
      ∀ before : DB, before.get (encodeEsetKey key) = world.db.get (encodeEsetKey key) →
        storedExpiry (WriteBatch.apply ops before) key = none := by
  have read := eval_eget_storedExpiry (world.delFastKey key) key
  rw [World.db_delFastKey] at read
  rw [cancelExpiration, Program.eval_bind, eval_delFastKey, edelOne, Program.eval_bind, read]
  cases stored : storedExpiry world.db key with
  | none =>
      refine ⟨0, [], by simp, by simp, fun before same => ?_⟩
      have none : storedExpiry before key = storedExpiry world.db key := by
        rw [storedExpiry, same, storedExpiry]
      exact none.trans stored
  | some ts =>
      refine ⟨1, [.delete (encodeEscoreKey key ts.toUInt64), .delete (encodeEsetKey key)], rfl, ?_,
        fun before _ => ?_⟩
      · simp only [List.mem_cons, List.not_mem_nil, or_false]
        rintro op (rfl | rfl)
        · exact Or.inr rfl
        · exact Or.inl rfl
      · have erased : (WriteBatch.apply [.delete (encodeEscoreKey key ts.toUInt64),
            .delete (encodeEsetKey key)] before).get (encodeEsetKey key) = none :=
          (SortedMap.get_erase _ _ _).trans (if_pos rfl)
        rw [storedExpiry, erased]
        rfl

/-- A live key that is to be replaced loses its expiry along with its life. -/
theorem eval_restore_forgets (runtime : Runtime) {expire : Int64} (data : Bytes)
    (nonneg : 0 ≤ expire) (live : MetaLive world.db key) (readable : MetaReadable world.db key) :
    ∃ metaVal reopened, Reopened world reopened key metaVal ∧
      storedExpiry reopened.db key = none ∧
      (restore runtime key expire data true).eval atomically world =
        (restoreObject runtime key (encodeMetaKey key) metaVal expire data).eval atomically
          reopened := by
  obtain ⟨metaVal, header, rest, found, decoded, enabled⟩ := metaLive_header live readable
  obtain ⟨ret, ops, cancelled, expiry, forgets⟩ := eval_cancelExpiration_forgets world key
    [.put (encodeMetaKey key) (metaVal.set posDel keyDeleteMask),
      .put (encodeDeleteKey key header.version) []]
  have marked : (markKeyDeleted key [] (encodeMetaKey key) metaVal).eval atomically world =
      ((1, [.put (encodeMetaKey key) (metaVal.set posDel keyDeleteMask),
        .put (encodeDeleteKey key header.version) []] ++ ops), world.delFastKey key) := by
    rw [markKeyDeleted, decoded]
    simp only [enabled, if_true, Program.eval_bind, List.nil_append, cancelled]
    rfl
  refine ⟨_, _, Reopened.of_live found decoded expiry, ?_,
    eval_restore_replaced runtime key data nonneg found decoded enabled marked⟩
  rw [World.db_withDB, WriteBatch.apply_append]
  have notMark : encodeEsetKey key ≠ encodeDeleteKey key header.version := by
    intro same
    exact absurd (List.cons.inj same).1 (by decide)
  refine forgets _ (((SortedMap.get_put _ _ _ _).trans (if_neg notMark)).trans ?_)
  exact (SortedMap.get_put _ _ _ _).trans (if_neg (encodeEsetKey_ne_metaKey key key))

end Reopening

section Writing

variable {world reopened : World} {key metaVal : Bytes} {ttl : Int64}

/-- The expiry of a key that is not live is stored all the same, unless it is over. -/
theorem eval_restoreExpire_joins (world : World) (key : Bytes)
    (future : world.clock 1 < ttl + world.clock 0) :
    ∃ after, (restoreExpire key ttl).eval atomically world = (true, after) ∧
      after.db = (expiryBatch world.db key (ttl + world.clock 0)).apply world.db := by
  obtain ⟨after, joined, same⟩ := eval_expireAt_joins world.tick key [] future
  refine ⟨after.withDB ((expiryBatch world.db key (ttl + world.clock 0)).apply after.db), ?_,
    congrArg (WriteBatch.apply _) same⟩
  rw [restoreExpire, Program.eval_bind, eval_timeMs]
  simp only [Program.eval_bind, joined, List.nil_append]
  rfl

theorem eval_restoreExpire_idle (world : World) (key : Bytes)
    (past : ttl + world.clock 0 ≤ world.clock 1) (readable : MetaReadable world.db key)
    (idle : ¬MetaLive world.db key) :
    ∃ after, (restoreExpire key ttl).eval atomically world = (true, after) ∧
      after.db = world.db := by
  have elapsed := eval_expireAt_over world.tick key [] past
  rw [eval_delKeyInternal_deleted world.tick.tick [] readable idle] at elapsed
  refine ⟨world.tick.tick.withDB (WriteBatch.apply [] world.db), ?_, rfl⟩
  rw [restoreExpire, Program.eval_bind, eval_timeMs]
  simp only [Program.eval_bind, elapsed]
  rfl

/-- A string is live afterwards in any case; an expiry that is over leaves the one there was. -/
theorem eval_quickKv_expiring (opened : Reopened world reopened key metaVal) (val : Bytes)
    (positive : 0 < ttl) :
    ∃ after, (quickKv key val (encodeMetaKey key) metaVal ttl).eval atomically reopened =
        (1, after) ∧ MetaLive after.db key ∧
      (reopened.clock 1 < ttl + reopened.clock 0 →
        storedExpiry after.db key = some (ttl + reopened.clock 0)) ∧
      (ttl + reopened.clock 0 ≤ reopened.clock 1 →
        storedExpiry after.db key = storedExpiry reopened.db key) := by
  have written : ∀ version : UInt16, ∃ after, (do
        let batch : WriteBatch := [.put (encodeMetaKey key) (encodeKvVal val version)]
        let batch ←
          if 0 < ttl then
            let now ← timeMs
            let expired ← expireAt key (ttl + now) batch false
            pure expired.2
          else pure batch
        if ← commitBatch batch then return 1 else return storageErr : Command Int).eval atomically
          reopened = (1, after) ∧ MetaLive after.db key ∧
      (reopened.clock 1 < ttl + reopened.clock 0 →
        storedExpiry after.db key = some (ttl + reopened.clock 0)) ∧
      (ttl + reopened.clock 0 ≤ reopened.clock 1 →
        storedExpiry after.db key = storedExpiry reopened.db key) := by
    intro version
    have put := metaLive_put reopened.db key val version
    by_cases past : ttl + reopened.clock 0 ≤ reopened.clock 1
    · have elapsed := eval_expireAt_over reopened.tick key
        [.put (encodeMetaKey key) (encodeKvVal val version)] past
      rw [eval_delKeyInternal_deleted reopened.tick.tick _ opened.readable opened.notLive] at elapsed
      refine ⟨reopened.tick.tick.withDB (WriteBatch.apply
        [.put (encodeMetaKey key) (encodeKvVal val version)] reopened.db), ?_, put,
        fun future => absurd past (Int64.not_le.mpr future), fun _ => storedExpiry_put _ _ _⟩
      simp only [if_pos positive, Program.eval_bind, eval_timeMs, elapsed]
      rfl
    · obtain ⟨after, joined, same⟩ := eval_expireAt_joins reopened.tick key
        [.put (encodeMetaKey key) (encodeKvVal val version)] (Int64.not_le.mp past)
      refine ⟨after.withDB (WriteBatch.apply ([.put (encodeMetaKey key) (encodeKvVal val version)] ++
        expiryBatch reopened.db key (ttl + reopened.clock 0)) after.db), ?_, ?_, fun _ => ?_,
        fun elapsed => absurd elapsed past⟩
      · simp only [if_pos positive, Program.eval_bind, eval_timeMs, joined]
        rfl
      · rw [World.db_withDB, WriteBatch.apply_append,
          metaLive_apply_expiry (isExpiry_expiryBatch _ _ _), same]
        exact put
      · rw [World.db_withDB, WriteBatch.apply_append]
        exact storedExpiry_expiryBatch _ _ _ _
  rw [quickKv]
  rcases opened.recreatable with rfl | ⟨header, rest, decoded, deleted⟩
  · exact written 0
  · have nonempty : metaVal ≠ [] := by
      rintro rfl
      cases decoded
    simp only [if_neg nonempty, KvMetaVal.decodeMetaVal, decoded, deleted, if_true]
    exact written _

/-- What a restore leaves of each kind of dump, from a key that is not live. -/
inductive Restored (reopened : World) (key : Bytes) (ts : Int64) :
    Dump → Except Crash (Int × String) × World → Prop
  | refused {ret : Int} {val : String} {after : World} (error : ret < 0)
      (same : after.db = reopened.db) : Restored reopened key ts .refused (.ok (ret, val), after)
  | fatal {crash : Crash} {after : World} : Restored reopened key ts .fatal (.error crash, after)
  | unread {ret : Int} {val : String} {after : World} (error : ret < 0)
      (future : reopened.clock 1 < ts →
        after.db = (expiryBatch reopened.db key ts).apply reopened.db)
      (past : ts ≤ reopened.clock 1 → after.db = reopened.db) :
      Restored reopened key ts .unread (.ok (ret, val), after)
  | string {ret : Int} {after : World} (success : 0 ≤ ret) (live : MetaLive after.db key)
      (future : reopened.clock 1 < ts → storedExpiry after.db key = some ts)
      (past : ts ≤ reopened.clock 1 →
        storedExpiry after.db key = storedExpiry reopened.db key) :
      Restored reopened key ts .string (.ok (ret, "OK"), after)
  | collection {ret : Int} {after : World} (success : 0 ≤ ret)
      (future : reopened.clock 1 < ts →
        MetaLive after.db key ∧ storedExpiry after.db key = some ts)
      (past : ts ≤ reopened.clock 1 → ¬MetaLive after.db key) :
      Restored reopened key ts .collection (.ok (ret, "OK"), after)
  | empty {ret : Int} {after : World} (success : 0 ≤ ret) (idle : ¬MetaLive after.db key) :
      Restored reopened key ts .empty (.ok (ret, "OK"), after)

theorem written_isEmpty {value : RdbValue} (container : value.object.isString = false) :
    value.object.written =
      if (value.metaVal 0).isNone then Dump.empty else Dump.collection := by
  cases value with
  | string val => cases container
  | list single cells => rfl
  | set members => cases members <;> rfl
  | zset scores => cases scores <;> rfl
  | hash fields => cases fields <;> rfl

theorem metaVal_isNone {value : RdbValue} (version other : UInt16) :
    (value.metaVal version).isNone = (value.metaVal other).isNone := by
  cases value with
  | string val => rfl
  | list single cells => rfl
  | set members => cases members <;> rfl
  | zset scores => cases scores <;> rfl
  | hash fields => cases fields <;> rfl

/-- The batch of a value brings its key to life unless it has no metadata. -/
theorem metaLive_batch (opened : Reopened world reopened key metaVal) (value : RdbValue)
    (version : UInt16) :
    MetaLive ((value.batch key version).apply reopened.db) key ↔
      ¬(value.metaVal version).isNone := by
  rw [MetaLive, RdbValue.get_batch_metaKey]
  cases metadata : value.metaVal version with
  | none =>
      rw [Option.none_or]
      exact iff_of_false opened.notLive (by simp)
  | some written =>
      obtain ⟨rest, decoded⟩ := RdbValue.metaVal_header metadata
      exact iff_of_true ⟨written, rfl, (decodeMetaHeader_eq_some decoded).2⟩ (by simp)

theorem restored_value (opened : Reopened world reopened key metaVal) (value : RdbValue)
    (positive : 0 < ttl) (small : value.count < 2 ^ 64) :
    Restored reopened key (ttl + reopened.clock 0) value.object.written
      ((writeObject key (encodeMetaKey key) metaVal ttl value.object).eval atomically reopened) := by
  rw [writeObject, Program.eval_bind]
  by_cases string : value.object.isString
  · cases value with
    | string val =>
        obtain ⟨after, run, live, future, past⟩ := eval_quickKv_expiring opened val positive
        rw [RdbValue.object, quickObject, Program.eval_bind, run]
        simp only [RdbObject.isString, Bool.not_true, Bool.false_eq_true, and_false, if_false,
          Program.pure_eq_done, Program.eval_done]
        exact .string zero_le_one live future past
    | list single cells => cases string
    | set members => cases string
    | zset scores => cases string
    | hash fields => cases string
  rw [Bool.not_eq_true] at string
  obtain ⟨ret, answered, run⟩ :=
    eval_quickObject reopened key ttl opened.recreatable string small
  have expires : 0 < ttl ∧ (!value.object.isString) = true := ⟨positive, by rw [string]; rfl⟩
  have exists_iff := metaLive_batch opened value (recreatedVersion metaVal)
  rw [metaVal_isNone _ 0] at exists_iff
  rw [run, written_isEmpty string]
  simp only [if_pos expires, Program.eval_bind]
  have readable := readable_batch opened value (recreatedVersion metaVal)
  by_cases past : ttl + reopened.clock 0 ≤ reopened.clock 1
  · obtain ⟨after, elapsed, idle⟩ := eval_restoreExpire_over (reopened.withDB
      ((value.batch key (recreatedVersion metaVal)).apply reopened.db)) key past readable
    simp only [elapsed, if_true, Program.pure_eq_done, Program.eval_done]
    split_ifs
    · exact .empty answered idle
    · exact .collection answered (fun future => absurd past (Int64.not_le.mpr future)) fun _ => idle
  · obtain ⟨after, joined, same⟩ := eval_restoreExpire_joins (reopened.withDB
      ((value.batch key (recreatedVersion metaVal)).apply reopened.db)) key (Int64.not_le.mp past)
    have stays := metaLive_apply_expiry (isExpiry_expiryBatch ((value.batch key
      (recreatedVersion metaVal)).apply reopened.db) key (ttl + reopened.clock 0))
      ((value.batch key (recreatedVersion metaVal)).apply reopened.db) key
    simp only [joined, if_true, Program.pure_eq_done, Program.eval_done]
    split_ifs with none
    · refine .empty answered ?_
      rw [same, World.db_withDB]
      exact fun live => exists_iff.mp (stays.mp live) none
    · refine .collection answered (fun _ => ?_) fun elapsed => absurd elapsed past
      rw [same, World.db_withDB]
      exact ⟨stays.mpr (exists_iff.mpr none), storedExpiry_expiryBatch _ _ _ _⟩

/-- The elements of a dump that loads are fewer than a length can count. -/
def Dump.Small (runtime : Runtime) (data : Bytes) : Prop :=
  ∀ body value, verifyDumpPayload runtime data = some body → Carries runtime body value →
    value.count < 2 ^ 64

theorem restored_object (opened : Reopened world reopened key metaVal) (runtime : Runtime)
    {data : Bytes} (positive : 0 < ttl) (small : Dump.Small runtime data) :
    Restored reopened key (ttl + reopened.clock 0) (Dump.ofBytes runtime data)
      ((restoreObject runtime key (encodeMetaKey key) metaVal ttl data).eval atomically
        reopened) := by
  rw [restoreObject, Dump.ofBytes]
  cases verified : verifyDumpPayload runtime data with
  | none => exact .refused (by decide) rfl
  | some body =>
      simp only
      cases loaded : loadDump runtime body with
      | error failure =>
          have isError := loadDump_isError.1 failure loaded
          cases failure with
          | code ret => exact .refused isError rfl
          | crash crash => exact .fatal
      | ok found =>
          obtain ⟨object, rest⟩ := found
          simp only [RdbObject.dump]
          cases failed : object.failure with
          | none =>
              obtain ⟨value, carries, rfl⟩ := carries_of_loadDump loaded failed
              exact restored_value opened value positive (small body value verified carries)
          | some failure =>
              have isError := loadDump_isError.2 object rest failure loaded failed
              have run := eval_quickObject_failed reopened key (encodeMetaKey key) ttl
                opened.recreatable failed
              have container : object.isString = false := by
                cases object with
                | string val => cases failed
                | list next | set next | zset next | hash next => rfl
              rw [writeObject, Program.eval_bind, run]
              cases failure with
              | crash crash => exact .fatal
              | code ret =>
                  simp only [Failure.outcome, container, Bool.not_false, and_true, if_pos positive,
                    Program.eval_bind]
                  by_cases past : ttl + reopened.clock 0 ≤ reopened.clock 1
                  · obtain ⟨after, elapsed, same⟩ := eval_restoreExpire_idle reopened key past
                      opened.readable opened.notLive
                    simp only [elapsed, if_true, Program.pure_eq_done, Program.eval_done]
                    exact .unread isError (fun future => absurd past (Int64.not_le.mpr future))
                      fun _ => same
                  · obtain ⟨after, joined, same⟩ := eval_restoreExpire_joins reopened key
                      (Int64.not_le.mp past)
                    simp only [joined, if_true, Program.pure_eq_done, Program.eval_done]
                    exact .unread isError (fun _ => same) fun elapsed => absurd elapsed past

end Writing

section Meeting

variable {world : World} {key : Bytes}

/-- What a command that may end the process is for. -/
def ExpiryAnswered (key : Bytes) (instant : Int) (last : Int64) (world : World)
    (outcome : Except Crash Reply × World) : Prop :=
  ∃ reply, outcome.1 = .ok reply ∧ ExpiryMeets key instant last world (reply, outcome.2)

/-- How a dump that is looked at must turn out for its instant to survive: it is refused and no key
has been deleted for it, or the value and its expiry are written as asked for. -/
def DumpKept (db : DB) (key : Bytes) (instant : Int) (last : Int64) : Dump → Prop
  | .refused => MetaLive db key → instant ≤ last.toInt
  | .unread =>
      instant ≤ last.toInt ∨
        ¬MetaLive db key ∧
          (last < Int64.ofInt instant → (expiryBatch db key (Int64.ofInt instant)).apply db = db)
  | .fatal => False
  | .string =>
      (last < Int64.ofInt instant ∧ (Int64.ofInt instant).toInt = instant) ∨
        (Int64.ofInt instant ≤ last ∧ ¬MetaLive db key ∧
          ∃ stored, storedExpiry db key = some stored ∧ stored.toInt = instant)
  | .collection =>
      (last < Int64.ofInt instant ∧ (Int64.ofInt instant).toInt = instant) ∨
        (Int64.ofInt instant ≤ last ∧ instant ≤ last.toInt)
  | .empty => instant ≤ last.toInt

/-- The reply to the result of a restore. -/
def restoreReply : Except Crash (Int × String) → Except Crash Reply
  | .error crash => .error crash
  | .ok (ret, val) => if ret < 0 then .ok (.error ret) else .ok (.status val)

theorem eval_procRestore_reply (runtime : Runtime) (world : World) (key : Bytes) {ttl : Int64}
    (data : Bytes) (replace : Bool) (nonneg : 0 ≤ ttl) :
    (procRestore runtime key ttl data replace).eval atomically world =
      (restoreReply ((restore runtime key ttl data replace).eval atomically world).1,
        ((restore runtime key ttl data replace).eval atomically world).2) := by
  rw [procRestore, if_neg (Int64.not_lt.mpr nonneg), Program.eval_bind]
  cases ((restore runtime key ttl data replace).eval atomically world).1 with
  | error crash => rfl
  | ok result =>
      obtain ⟨ret, val⟩ := result
      simp only [restoreReply, Program.eval_ite]
      split_ifs <;> rfl

theorem expiryAnswered_error {instant : Int} {last : Int64} {ret : Int} {val : String}
    {after : World} (error : ret < 0) :
    ExpiryAnswered key instant last world (restoreReply (.ok (ret, val)), after) ↔
      ExpiryMeets key instant last world (.error ret, after) := by
  simp only [ExpiryAnswered, restoreReply, if_pos error, Except.ok.injEq, exists_eq_left']

theorem expiryAnswered_success {instant : Int} {last : Int64} {ret : Int} {val : String}
    {after : World} (success : 0 ≤ ret) :
    ExpiryAnswered key instant last world (restoreReply (.ok (ret, val)), after) ↔
      ExpiresAt after.db key instant ∨ (instant ≤ last.toInt ∧ ¬MetaLive after.db key) := by
  simp only [ExpiryAnswered, restoreReply, if_neg (not_lt.mpr success), Except.ok.injEq,
    exists_eq_left', ExpiryMeets, Reply.Refuses, false_and, false_or]

/-- What a restore leaves of a dump is what it is for exactly when its instant survives. -/
theorem expiryAnswered_restored_iff {reopened : World} {metaVal : Bytes}
    (opened : Reopened world reopened key metaVal)
    (idle : ¬MetaLive world.db key → reopened = world)
    (forgets : MetaLive world.db key → storedExpiry reopened.db key = none) {instant : Int}
    {dump : Dump} {outcome : Except Crash (Int × String) × World}
    (restored : Restored reopened key (Int64.ofInt instant) dump outcome) :
    ExpiryAnswered key instant (world.clock 1) world (restoreReply outcome.1, outcome.2) ↔
      DumpKept world.db key instant (world.clock 1) dump := by
  have dead := opened.notLive
  have clock : reopened.clock 1 = world.clock 1 := congrFun opened.clock 1
  have changed : MetaLive world.db key → reopened.db ≠ world.db := fun live same =>
    dead (same ▸ live)
  cases restored with
  | refused error same =>
      rw [expiryAnswered_error error, ExpiryMeets, same, ExpiresAt, DumpKept]
      by_cases live : MetaLive world.db key
      · simp [changed live, dead, live]
      · simp [idle live, live, Reply.Refuses]
  | fatal => simp [ExpiryAnswered, restoreReply, DumpKept]
  | unread error future past =>
      rw [expiryAnswered_error error, ExpiryMeets, ExpiresAt, DumpKept]
      rw [clock] at future past
      by_cases elapsed : Int64.ofInt instant ≤ world.clock 1
      · rw [past elapsed]
        by_cases live : MetaLive world.db key
        · simp [changed live, dead, live]
        · simp [idle live, live, Reply.Refuses, Int64.not_lt.mpr elapsed]
      · have later := Int64.not_le.mp elapsed
        have stays := metaLive_apply_expiry (isExpiry_expiryBatch reopened.db key
          (Int64.ofInt instant)) reopened.db key
        rw [future later, stays]
        by_cases live : MetaLive world.db key
        · have differs : (expiryBatch reopened.db key (Int64.ofInt instant)).apply reopened.db ≠
              world.db := fun same => dead (stays.mp (same ▸ live))
          simp [differs, dead, live]
        · simp [idle live, live, Reply.Refuses, later, or_comm]
  | string success live future past =>
      rw [expiryAnswered_success success, ExpiresAt, DumpKept]
      rw [clock] at future past
      by_cases elapsed : Int64.ofInt instant ≤ world.clock 1
      · rw [past elapsed]
        by_cases existed : MetaLive world.db key
        · simp [forgets existed, live, existed, Int64.not_lt.mpr elapsed]
        · obtain rfl := idle existed
          simp [live, existed, elapsed, Int64.not_lt.mpr elapsed]
      · have later := Int64.not_le.mp elapsed
        simp [future later, live, later, elapsed]
  | collection success future past =>
      rw [expiryAnswered_success success, ExpiresAt, DumpKept]
      rw [clock] at future past
      by_cases elapsed : Int64.ofInt instant ≤ world.clock 1
      · simp [past elapsed, elapsed, Int64.not_lt.mpr elapsed]
      · have later := Int64.not_le.mp elapsed
        simp [(future later).1, (future later).2, later, elapsed]
  | empty success idle =>
      rw [expiryAnswered_success success, DumpKept]
      simp [ExpiresAt, idle]

/-- RESTORE with an expiry does what it is for exactly when its instant survives. -/
theorem procRestore_meets_iff (runtime : Runtime) (world : World) (key data : Bytes) {ttl : Int64}
    (replace : Bool) (positive : 0 < ttl) (readable : MetaReadable world.db key)
    (small : Dump.Small runtime data) :
    let instant := (world.clock 0).toInt + ttl.toInt
    ExpiryAnswered key instant (world.clock 1) world
        ((procRestore runtime key ttl data replace).eval atomically world) ↔
      (MetaLive world.db key ∧ replace = false) ∨
        DumpKept world.db key instant (world.clock 1) (Dump.ofBytes runtime data) := by
  intro instant
  have nonneg : 0 ≤ ttl := Int64.le_of_lt positive
  have shifted : ttl + world.clock 0 = Int64.ofInt instant := by
    rw [Int64.ofInt_add, Int64.ofInt_toInt, Int64.ofInt_toInt, Int64.add_comm]
  rw [eval_procRestore_reply runtime world key data replace nonneg]
  by_cases live : MetaLive world.db key
  · cases replace with
    | false =>
        rw [eval_restore_busy runtime key data nonneg live readable,
          expiryAnswered_error (by decide)]
        exact iff_of_true (Or.inl ⟨trivial, rfl⟩) (Or.inl ⟨live, rfl⟩)
    | true =>
        obtain ⟨metaVal, reopened, opened, forgets, run⟩ :=
          eval_restore_forgets runtime data nonneg live readable
        have restored := restored_object opened runtime positive small
        rw [congrFun opened.clock 0, shifted] at restored
        rw [run, expiryAnswered_restored_iff opened (absurd live) (fun _ => forgets) restored]
        simp
  · have opened := Reopened.of_deleted readable live
    have restored := restored_object opened runtime positive small
    rw [shifted] at restored
    rw [eval_restore_idle runtime key data replace nonneg live readable,
      expiryAnswered_restored_iff opened (fun _ => rfl) (fun existed => absurd existed live)
        restored]
    simp [live]

end Meeting

/-! ### Every command that sets an expiry -/

/-- The commands that set an expiry, with their arguments behind the key. -/
inductive ExpireCommand
  | expire (argument : Bytes)
  | pexpire (argument : Bytes)
  | expireat (argument : Bytes)
  | pexpireat (argument : Bytes)
  | setex (argument val : Bytes)
  | psetex (argument val : Bytes)
  | set (val : Bytes) (words : List Bytes)
  | restore (ttl : Int64) (data : Bytes) (replace : Bool)

namespace ExpireCommand

/-- A command that cannot end the process. -/
def answered (program : Command Reply) : Command (Except Crash Reply) := do
  return .ok (← program)

def run (runtime : Runtime) (key : Bytes) : ExpireCommand → Command (Except Crash Reply)
  | expire argument => answered (procExpire key argument)
  | pexpire argument => answered (procPexpire key argument)
  | expireat argument => answered (procExpireat key argument)
  | pexpireat argument => answered (procPexpireat key argument)
  | setex argument val => answered (procSetex key argument val)
  | psetex argument val => answered (procPsetex key argument val)
  | set val words => answered (procSet key val words)
  | restore ttl data replace => procRestore runtime key ttl data replace

/-- An expiry is asked for: a SET has the option, and a RESTORE a ttl other than zero. -/
def Asks (runtime : Runtime) : ExpireCommand → Prop
  | set _ words => ∃ options, setOptions words {} = .ok options ∧
      (options.flags.ex ∨ options.flags.px)
  | restore ttl data _ => ttl ≠ 0 ∧ Dump.Small runtime data
  | _ => True

/-- The time to live that a command asks for, in milliseconds. -/
def amount : ExpireCommand → Int
  | expire argument => TimeUnit.second.milliseconds * ((string2ll argument).getD 0).toInt
  | pexpire argument => TimeUnit.millisecond.milliseconds * ((string2ll argument).getD 0).toInt
  | expireat argument => instantAt .second argument
  | pexpireat argument => instantAt .millisecond argument
  | setex argument _ => TimeUnit.second.milliseconds * ((int64Argument argument).getD 0).toInt
  | psetex argument _ =>
      TimeUnit.millisecond.milliseconds * ((int64Argument argument).getD 0).toInt
  | set _ words =>
      match setOptions words {} with
      | .error _ => 0
      | .ok options => options.unit.milliseconds * options.ttl.toInt
  | restore ttl _ _ => ttl.toInt

/-- The instant is given as such. -/
def absolute : ExpireCommand → Bool
  | expireat _ | pexpireat _ => true
  | _ => false

/-- The instant a command asks for. -/
def instant (world : World) (command : ExpireCommand) : Int :=
  if command.absolute then command.amount else (world.clock 0).toInt + command.amount

/-- The last reading of the clock. -/
def last (world : World) (command : ExpireCommand) : Int64 :=
  if command.absolute then world.clock 0 else world.clock 1

/-- The arguments are refused, or the instant survives. -/
def Kept (runtime : Runtime) (world : World) (key : Bytes) (command : ExpireCommand) : Prop :=
  let instant := command.instant world
  let last := command.last world
  match command with
  | expire argument =>
      string2ll argument = none ∨
        (∃ code, convert2ms ((string2ll argument).getD 0) .second = .error code) ∨
        InstantKept world.db key instant last
  | pexpire argument =>
      string2ll argument = none ∨
        (∃ code, convert2ms ((string2ll argument).getD 0) .millisecond = .error code) ∨
        InstantKept world.db key instant last
  | expireat argument | pexpireat argument =>
      string2ll argument = none ∨ InstantKept world.db key instant last
  | setex argument _ =>
      (int64Argument argument).getD 0 ≤ 0 ∨
        (∃ code, convert2ms ((int64Argument argument).getD 0) .second = .error code) ∨
        SetInstantKept world.db key { ex := true } instant last
  | psetex argument _ =>
      (int64Argument argument).getD 0 ≤ 0 ∨
        (∃ code, convert2ms ((int64Argument argument).getD 0) .millisecond = .error code) ∨
        SetInstantKept world.db key { px := true } instant last
  | set _ words =>
      ∀ options, setOptions words {} = .ok options →
        (∃ code, convert2ms options.ttl options.unit = .error code) ∨
          SetInstantKept world.db key options.flags instant last
  | restore ttl data replace =>
      ttl < 0 ∨ (MetaLive world.db key ∧ replace = false) ∨
        DumpKept world.db key instant last (Dump.ofBytes runtime data)

theorem expiryAnswered_answered (program : Command Reply) (key : Bytes) (instant : Int)
    (last : Int64) (world : World) :
    ExpiryAnswered key instant last world ((answered program).eval atomically world) ↔
      ExpiryMeets key instant last world (program.eval atomically world) := by
  rw [answered, Program.eval_bind]
  simp [ExpiryAnswered]

/-- A command that sets an expiry does what it is for exactly when its instant survives the
arithmetic and both readings of the clock. -/
theorem meets_iff (runtime : Runtime) (world : World) (key : Bytes) (command : ExpireCommand)
    (asks : command.Asks runtime) (readable : MetaReadable world.db key) :
    ExpiryAnswered key (command.instant world) (command.last world) world
        ((command.run runtime key).eval atomically world) ↔
      command.Kept runtime world key := by
  cases command with
  | expire argument =>
      have replies : RepliesFor fun ret => .int (if ret = 0 then 0 else 1) :=
        ⟨rfl, fun refused => absurd refused one_ne_zero⟩
      rw [run, expiryAnswered_answered]
      exact expireIn_meets_iff world key argument .second replies readable
  | pexpire argument =>
      have replies : RepliesFor Reply.int := ⟨rfl, fun refused => absurd refused two_ne_zero⟩
      rw [run, expiryAnswered_answered]
      exact expireIn_meets_iff world key argument .millisecond replies readable
  | expireat argument =>
      rw [run, expiryAnswered_answered]
      exact procExpireat_meets_iff world key argument readable
  | pexpireat argument =>
      rw [run, expiryAnswered_answered]
      exact procPexpireat_meets_iff world key argument readable
  | setex argument val =>
      rw [run, expiryAnswered_answered]
      exact setExpiring_meets_iff world key argument val .second (Or.inl rfl) (by decide) readable
  | psetex argument val =>
      rw [run, expiryAnswered_answered]
      exact setExpiring_meets_iff world key argument val .millisecond (Or.inr rfl) (by decide)
        readable
  | set val words =>
      obtain ⟨options, read, expiring⟩ := asks
      have met := procSet_meets_iff world key val read expiring readable
      rw [run, expiryAnswered_answered]
      simp only [Kept, instant, last, absolute, amount, read] at met ⊢
      simpa using met
  | restore ttl data replace =>
      obtain ⟨nonzero, small⟩ := asks
      rw [Kept]
      by_cases negative : ttl < 0
      · simp only [negative, true_or, iff_true, run, procRestore, if_true]
        exact ⟨_, rfl, expiryMeets_of_refused trivial rfl⟩
      · have positive : 0 < ttl := Int64.lt_of_le_of_ne (Int64.not_lt.mp negative) nonzero.symm
        have met := procRestore_meets_iff runtime world key data replace positive readable small
        simp only [negative, false_or]
        exact met

section Samples

theorem metaReadable_stringWorld (key val : Bytes) :
    MetaReadable (stringWorld key val).db key := by
  intro metaVal found
  rw [stringWorld, SortedMap.get_put_self, Option.some_inj] at found
  rw [← found, decodeMetaHeader_kvVal]
  rfl

theorem meets_pexpire :
    ExpiryAnswered [107] ((pexpire [53]).instant (stringWorld [107] [97]))
        ((pexpire [53]).last (stringWorld [107] [97])) (stringWorld [107] [97])
        (((pexpire [53]).run (sampleRuntime 0) [107]).eval atomically (stringWorld [107] [97])) ↔
      (pexpire [53]).Kept (sampleRuntime 0) (stringWorld [107] [97]) [107] :=
  meets_iff _ _ _ _ trivial (metaReadable_stringWorld _ _)

/-- An empty store whose clock goes on by five seconds behind its first reading. -/
def lateWorld : World where
  db := ∅
  expiration := {}
  cursors := ∅
  clock n := if n = 0 then 0 else 5000
  random _ := 0

/-- `SETEX k 1 v` on the empty store makes a key that never expires, and
`EXPIREAT k 9223372036854776` deletes a key at once. -/
theorem instants_lost :
    (∀ n, lateWorld.clock n ≤ lateWorld.clock (n + 1)) ∧
      ¬ExpiryAnswered [107] ((setex [49] [118]).instant lateWorld)
        ((setex [49] [118]).last lateWorld) lateWorld
        (((setex [49] [118]).run (sampleRuntime 0) [107]).eval atomically lateWorld) ∧
      ¬ExpiryAnswered [107]
        ((expireat [57, 50, 50, 51, 51, 55, 50, 48, 51, 54, 56, 53, 52, 55, 55, 54]).instant
          (stringWorld [107] [97]))
        ((expireat [57, 50, 50, 51, 51, 55, 50, 48, 51, 54, 56, 53, 52, 55, 55, 54]).last
          (stringWorld [107] [97])) (stringWorld [107] [97])
        (((expireat [57, 50, 50, 51, 51, 55, 50, 48, 51, 54, 56, 53, 52, 55, 55, 54]).run
          (sampleRuntime 0) [107]).eval atomically (stringWorld [107] [97])) := by
  refine ⟨fun n => ?_, ?_, ?_⟩
  · cases n with
    | zero => decide
    | succ n => exact Int64.le_refl 5000
  · have readable : MetaReadable lateWorld.db [107] := fun metaVal found => by cases found
    rw [run, expiryAnswered_answered]
    have converted : convert2ms ((int64Argument [49]).getD 0) .second = .ok 1000 := by
      decide +kernel
    intro met
    have kept := (setExpiring_meets_iff lateWorld [107] [49] [118] .second (Or.inl rfl) (by decide)
      readable).mp met
    rcases kept with negative | ⟨code, refused⟩ | kept
    · exact absurd negative (by decide +kernel)
    · rw [converted] at refused
      cases refused
    · rcases kept with failed | absent | present | ⟨future, _⟩ | ⟨_, existed, _⟩ |
        ⟨_, _, ts, stored, _⟩
      · exact absurd failed (by decide)
      · exact absurd absent (by decide)
      · exact absurd present (by decide)
      · exact absurd future (by decide +kernel)
      · exact absurd existed (by decide)
      · cases stored
  · rw [run, expiryAnswered_answered]
    intro met
    have kept := (procExpireat_meets_iff _ _ _ (metaReadable_stringWorld [107] [97])).mp met
    rcases kept with unread | fits | ⟨future, _⟩ | ⟨_, elapsed⟩
    · exact absurd unread (by decide +kernel)
    · exact absurd fits (by decide +kernel)
    · exact absurd future (by decide +kernel)
    · exact absurd elapsed (by decide)

end Samples

end ExpireCommand

end Vcdb
