import Vcdb.Keyspace.RestoreExpire

/-!
# A failing RESTORE

A restore deletes the value it is to replace before it looks at the dump, and stores the expiry of a
collection whether the collection was written or not.  Its other failures leave the store alone.
-/

namespace Vcdb

section Expiries

variable {db : DB} {key : Bytes} {ts : Int64}

/-- Both records of an expiry are stored. -/
def ExpiryStored (db : DB) (key : Bytes) (ts : Int64) : Prop :=
  db.get (encodeEsetKey key) = some (hostOrder64 ts.toUInt64) ∧
    db.get (encodeEscoreKey key ts.toUInt64) = some []

theorem put_of_get {raw val : Bytes} (stored : db.get raw = some val) : db.put raw val = db := by
  apply SortedMap.ext
  intro other
  rw [SortedMap.get_put]
  split_ifs with same
  · rw [same, stored]
  · rfl

/-- Storing an expiry changes nothing exactly when it is stored already. -/
theorem apply_expiryBatch_eq_iff :
    (expiryBatch db key ts).apply db = db ↔ ExpiryStored db key ts := by
  constructor
  · intro same
    have written : ∀ start : DB, ExpiryStored (WriteBatch.apply [.put (encodeEsetKey key)
        (hostOrder64 ts.toUInt64), .put (encodeEscoreKey key ts.toUInt64) []] start) key ts := by
      intro start
      refine ⟨?_, SortedMap.get_put_self _ _ _⟩
      refine (SortedMap.get_put _ _ _ _).trans ?_
      rw [if_neg (encodeEscoreKey_ne_esetKey _ _ _).symm]
      exact SortedMap.get_put_self _ _ _
    rw [← same, expiryBatch, WriteBatch.apply_append]
    exact written _
  · rintro ⟨expiry, index⟩
    have stored : storedExpiry db key = some ts := by
      rw [storedExpiry, expiry, Option.map_some, readHostOrder64_hostOrder64]
      rfl
    have first := put_of_get expiry
    simp only [expiryBatch, stored, ne_eq, not_true_eq_false, if_false, List.nil_append]
    exact (congrArg (SortedMap.put · (encodeEscoreKey key ts.toUInt64) []) first).trans
      (put_of_get index)

end Expiries

section Outcomes

/-- An error reply comes with the store as it was. -/
def ErrorKeeps (db : DB) (outcome : Except Crash Reply × World) : Prop :=
  ∀ code, outcome.1 = .ok (.error code) → outcome.2.db = db

/-- An error of `restore` comes with the store as it was. -/
def RestoreKeeps (db : DB) (outcome : Except Crash (Int × String) × World) : Prop :=
  ErrorKeeps db (restoreReply outcome.1, outcome.2)

theorem restoreKeeps_same {db : DB} {result : Except Crash (Int × String)} {after : World}
    (same : after.db = db) : RestoreKeeps db (result, after) :=
  fun _ _ => same

theorem restoreKeeps_success {db : DB} {ret : Int} {val : String} {after : World}
    (success : 0 ≤ ret) : RestoreKeeps db (.ok (ret, val), after) := by
  intro code failed
  simp [restoreReply, not_lt.mpr success] at failed

theorem restoreKeeps_error_iff {db : DB} {ret : Int} {val : String} {after : World}
    (error : ret < 0) : RestoreKeeps db (.ok (ret, val), after) ↔ after.db = db := by
  simp [RestoreKeeps, ErrorKeeps, restoreReply, error]

theorem restoreKeeps_crash {db : DB} {crash : Crash} {after : World} :
    RestoreKeeps db (.error crash, after) := by
  intro code failed
  cases failed

end Outcomes

section Damage

/-- The object of a dump, as far as it is read before its key is written. -/
def dumpObject (runtime : Runtime) (data : Bytes) : Except Failure RdbObject :=
  match verifyDumpPayload runtime data with
  | none => .error (.code invalidDumpStr)
  | some body => (loadDump runtime body).map Prod.fst

/-- The dump is refused, as a whole or when its elements are read. -/
def DumpFails (runtime : Runtime) (data : Bytes) : Prop :=
  (∃ ret, dumpObject runtime data = .error (.code ret)) ∨
    ∃ object ret, dumpObject runtime data = .ok object ∧ object.failure = some (.code ret)

/-- Storing the expiry of a restored collection changes the store. -/
def ExpiryChanges (world : World) (key : Bytes) (ttl : Int64) : Prop :=
  0 < ttl ∧ world.clock 1 < ttl + world.clock 0 ∧
    ¬ExpiryStored world.db key (ttl + world.clock 0)

/-- The restores that fail and change the store.  The value to be replaced is gone, or an expiry is
stored for a key without a value: behind elements that are refused, or under metadata that cannot
be read. -/
inductive RestoreDamages (runtime : Runtime) (world : World) (key : Bytes) (ttl : Int64)
    (data : Bytes) : Bool → Prop
  | replaced (live : MetaLive world.db key) (fails : DumpFails runtime data) :
      RestoreDamages runtime world key ttl data true
  | unread {replace : Bool} {object : RdbObject} {ret : Int} (idle : ¬MetaLive world.db key)
      (readable : MetaReadable world.db key) (loads : dumpObject runtime data = .ok object)
      (fails : object.failure = some (.code ret)) (expiry : ExpiryChanges world key ttl) :
      RestoreDamages runtime world key ttl data replace
  | unreadable {replace : Bool} {metaVal : Bytes} {object : RdbObject}
      (found : world.db.get (encodeMetaKey key) = some metaVal) (long : 4 ≤ metaVal.length)
      (headless : decodeMetaHeader metaVal = none) (loads : dumpObject runtime data = .ok object)
      (collection : object.isString = false) (expiry : ExpiryChanges world key ttl) :
      RestoreDamages runtime world key ttl data replace

end Damage

section Writing

variable {world reopened : World} {key metaVal : Bytes} {ttl : Int64}

/-- A dump is read as far as its object before anything is written. -/
theorem restoreObject_eq (runtime : Runtime) (key metaKey metaVal : Bytes) (ttl : Int64)
    (data : Bytes) :
    restoreObject runtime key metaKey metaVal ttl data =
      match dumpObject runtime data with
      | .error (.code ret) => return .ok (ret, "none")
      | .error (.crash crash) => return .error crash
      | .ok object => writeObject key metaKey metaVal ttl object := by
  rw [restoreObject, dumpObject]
  cases verifyDumpPayload runtime data with
  | none => rfl
  | some body =>
      cases loaded : loadDump runtime body with
      | error failure => cases failure <;> simp only [loaded] <;> rfl
      | ok found => simp only [loaded]; rfl

theorem dumpObject_isError {runtime : Runtime} {data : Bytes} {ret : Int} :
    (dumpObject runtime data = .error (.code ret) → ret < 0) ∧
      ∀ object, dumpObject runtime data = .ok object → object.failure = some (.code ret) →
        ret < 0 := by
  rw [dumpObject]
  cases verifyDumpPayload runtime data with
  | none =>
      refine ⟨fun failed => ?_, fun object loads => by cases loads⟩
      cases failed
      decide
  | some body =>
      cases loaded : loadDump runtime body with
      | error reason =>
          simp only [loaded]
          refine ⟨fun failed => ?_, fun object loads => by cases loads⟩
          cases failed
          exact loadDump_isError.1 _ loaded
      | ok found =>
          obtain ⟨object, rest⟩ := found
          simp only [loaded]
          refine ⟨fun failed => (by cases failed), fun object' loads failed => ?_⟩
          cases loads
          exact loadDump_isError.2 object rest _ loaded failed

/-- The store accepts the expiry of a restored collection in any case. -/
theorem restoreExpire_stores (world : World) (key : Bytes) (ttl : Int64) :
    ((restoreExpire key ttl).eval atomically world).1 = true := by
  rw [restoreExpire, Program.eval_bind, eval_timeMs]
  simp only [Program.eval_bind, eval_commitBatch]

/-- A first commit succeeds whatever the number of elements. -/
theorem commitSize_created_succeeds (world : World) (key : Bytes) (type : UInt8) (version : UInt16)
    (batch : WriteBatch) (n : Nat) :
    0 ≤ ((commitSize (incrSize type key batch (encodeMetaKey key) { type, version } n)).eval
      atomically world).1 := by
  rw [commitSize, incrSize, if_pos rfl]
  cases n with
  | zero => simp
  | succ n =>
      have positive : ((n + 1 : Nat) : Int) > 0 := by omega
      rw [if_pos positive]
      simp

theorem quickObject_succeeds (opened : Reopened world reopened key metaVal) (ttl : Int64)
    {object : RdbObject} (read : object.failure = none) :
    ∃ ret, 0 ≤ ret ∧
      ((quickObject key (encodeMetaKey key) metaVal ttl object).eval atomically reopened).1 =
        .ok ret := by
  have recreatable := opened.recreatable
  cases object with
  | string val =>
      obtain ⟨ops, after, run, _⟩ := eval_quickKv opened val ttl
      refine ⟨1, zero_le_one, ?_⟩
      rw [quickObject, Program.eval_bind, run]
      rfl
  | list next =>
      cases next with
      | error failure => cases read
      | ok cells =>
          refine ⟨1, zero_le_one, ?_⟩
          rw [quickObject, quickList, quickListMetaVal_eq recreatable]
          simp [quickly]
  | set next =>
      cases next with
      | error failure => cases read
      | ok members =>
          rw [quickObject, quickSet, quickMetaVal_eq _ recreatable]
          simp only [quickly, commitSet, incrSsize, Program.eval_bind]
          refine ⟨_, ?_, rfl⟩
          exact commitSize_created_succeeds reopened key DataType.ssize _ _ members.length
  | zset next =>
      cases next with
      | error failure => cases read
      | ok scores =>
          rw [quickObject, quickZset, quickMetaVal_eq _ recreatable]
          refine ⟨1, zero_le_one, ?_⟩
          have success := fun batch => commitSize_created_succeeds reopened key DataType.zsize
            (recreatedVersion metaVal) batch scores.length
          simp only [quickly, commitZset, incrZsize, Program.eval_bind]
          rw [if_neg (not_lt.mpr (success _))]
          rfl
  | hash next =>
      cases next with
      | error failure => cases read
      | ok fields =>
          rw [quickObject, quickHash, quickMetaVal_eq _ recreatable]
          simp only [quickly, commitHash, incrHsize, Program.eval_bind]
          refine ⟨_, ?_, rfl⟩
          exact commitSize_created_succeeds reopened key DataType.hsize _ _ fields.length

theorem writeObject_succeeds (opened : Reopened world reopened key metaVal) (ttl : Int64)
    {object : RdbObject} (read : object.failure = none) :
    ∃ ret after, 0 ≤ ret ∧ (writeObject key (encodeMetaKey key) metaVal ttl object).eval atomically
      reopened = (.ok (ret, "OK"), after) := by
  obtain ⟨ret, success, written⟩ := quickObject_succeeds opened ttl read
  rw [writeObject, Program.eval_bind, written]
  simp only [Program.eval_ite]
  split_ifs
  · rw [Program.eval_bind, restoreExpire_stores]
    exact ⟨ret, _, success, rfl⟩
  · exact ⟨ret, _, success, rfl⟩

/-- Deleting a key that is not live changes nothing, even if its metadata cannot be read. -/
theorem eval_delKeyInternal_idle (world : World) (batch : WriteBatch)
    (idle : ¬MetaLive world.db key) :
    ∃ ret, (delKeyInternal key batch).eval atomically world = ((ret, batch), world) := by
  have read : (dbGet (encodeMetaKey key)).eval atomically world =
      (ReadStatus.ofOption (world.db.get (encodeMetaKey key)), world) := rfl
  rw [delKeyInternal, Program.eval_bind, read]
  cases found : world.db.get (encodeMetaKey key) with
  | none => exact ⟨0, rfl⟩
  | some metaVal =>
      simp only [ReadStatus.ofOption, markKeyDeleted]
      cases decoded : decodeMetaHeader metaVal with
      | none =>
          refine ⟨mkeyDecodecErr, ?_⟩
          split_ifs <;> rfl
      | some found' =>
          obtain ⟨header, rest⟩ := found'
          have disabled : header.del ≠ keyEnabledMask := fun enabled =>
            idle ⟨metaVal, found, enabled ▸ (decodeMetaHeader_eq_some decoded).2⟩
          refine ⟨0, ?_⟩
          simp only [if_pos (recreatable_set decoded).1, if_neg disabled]
          rfl

/-- The expiry of a key that is not live leaves it so, and is the only change. -/
theorem restoreExpire_keeps_iff (idle : ¬MetaLive world.db key) (positive : 0 < ttl) :
    ¬MetaLive ((restoreExpire key ttl).eval atomically world).2.db key ∧
      (((restoreExpire key ttl).eval atomically world).2.db = world.db ↔
        ¬ExpiryChanges world key ttl) := by
  by_cases past : ttl + world.clock 0 ≤ world.clock 1
  · obtain ⟨ret, deletes⟩ := eval_delKeyInternal_idle world.tick.tick [] idle
    have elapsed := eval_expireAt_over world.tick key [] past
    rw [deletes] at elapsed
    have same : ((restoreExpire key ttl).eval atomically world).2.db = world.db := by
      rw [restoreExpire, Program.eval_bind, eval_timeMs]
      simp only [Program.eval_bind, elapsed]
      rfl
    rw [same]
    exact ⟨idle, iff_of_true rfl fun changes => absurd changes.2.1 (Int64.not_lt.mpr past)⟩
  · have future := Int64.not_le.mp past
    obtain ⟨after, run, same⟩ := eval_restoreExpire_joins world key future
    rw [run, same, metaLive_apply_expiry (isExpiry_expiryBatch _ _ _), apply_expiryBatch_eq_iff]
    refine ⟨idle, fun stored changes => changes.2.2 stored, fun unchanged => ?_⟩
    by_contra absent
    exact unchanged ⟨positive, future, absent⟩

/-- A value that is refused leaves the store alone, but for the expiry of a collection. -/
theorem writeObject_refused_keeps_iff {metaKey : Bytes} {object : RdbObject} {ret : Int}
    (refused : (quickObject key metaKey metaVal ttl object).eval atomically world =
      (.ok ret, world))
    (idle : ¬MetaLive world.db key) :
    ∃ after, (writeObject key metaKey metaVal ttl object).eval atomically world =
        (.ok (ret, "OK"), after) ∧ ¬MetaLive after.db key ∧
      (after.db = world.db ↔ ¬(object.isString = false ∧ ExpiryChanges world key ttl)) := by
  rw [writeObject, Program.eval_bind, refused]
  simp only [Program.eval_ite]
  split_ifs with expires
  · obtain ⟨stays, keeps⟩ := restoreExpire_keeps_iff idle expires.1
    have collection : object.isString = false := by simpa using expires.2
    rw [Program.eval_bind, restoreExpire_stores]
    refine ⟨_, rfl, stays, keeps.trans ?_⟩
    simp [collection]
  · refine ⟨world, rfl, idle, iff_of_true rfl fun changes => expires ⟨changes.2.1, ?_⟩⟩
    rw [changes.1]
    rfl

end Writing

section Restoring

variable {world reopened : World} {key metaVal data : Bytes} {ttl : Int64}

/-- A live key's metadata has a header. -/
theorem metaReadable_of_live (live : MetaLive world.db key) : MetaReadable world.db key := by
  obtain ⟨metaVal, found, enabled⟩ := live
  intro stored found'
  obtain rfl := Option.some_inj.mp (found.symm.trans found')
  match metaVal, enabled with
  | type :: high :: low :: del :: tail, enabled =>
      cases enabled
      simp [decodeMetaHeader]

/-- A dump that is not refused is restored, or ends the process. -/
theorem restoreObject_accepted (opened : Reopened world reopened key metaVal) {runtime : Runtime}
    (accepted : ¬DumpFails runtime data) (ttl : Int64) (db : DB) :
    RestoreKeeps db ((restoreObject runtime key (encodeMetaKey key) metaVal ttl data).eval
      atomically
      reopened) := by
  rw [restoreObject_eq]
  cases loads : dumpObject runtime data with
  | error failure =>
      cases failure with
      | code ret => exact absurd (Or.inl ⟨ret, loads⟩) accepted
      | crash crash => exact restoreKeeps_crash
  | ok object =>
      cases read : object.failure with
      | none =>
          obtain ⟨ret, after, success, run⟩ := writeObject_succeeds opened ttl read
          simp only [run]
          exact restoreKeeps_success success
      | some failure =>
          cases failure with
          | code ret => exact absurd (Or.inr ⟨object, ret, loads, read⟩) accepted
          | crash crash =>
              simp only [writeObject, Program.eval_bind,
                eval_quickObject_failed reopened key _ ttl opened.recreatable read]
              exact restoreKeeps_crash

/-- A dump that is refused leaves no live key behind, and the store alone unless its elements are
read before an expiry is stored. -/
theorem restoreObject_refused_keeps_iff (opened : Reopened world reopened key metaVal)
    {runtime : Runtime} (fails : DumpFails runtime data) (ttl : Int64) :
    ∃ ret val after, ret < 0 ∧
      (restoreObject runtime key (encodeMetaKey key) metaVal ttl data).eval atomically reopened =
        (.ok (ret, val), after) ∧
      ¬MetaLive after.db key ∧
      (after.db = reopened.db ↔
        ¬((∃ object, dumpObject runtime data = .ok object) ∧ ExpiryChanges reopened key ttl)) := by
  rw [restoreObject_eq]
  rcases fails with ⟨ret, failed⟩ | ⟨object, ret, loads, failed⟩
  · rw [failed]
    exact ⟨ret, "none", reopened, dumpObject_isError.1 failed, rfl, opened.notLive,
      iff_of_true rfl fun changes => by cases changes.1.choose_spec⟩
  · have collection : object.isString = false := by
      cases object with
      | string val => cases failed
      | list next | set next | zset next | hash next => rfl
    obtain ⟨after, run, idle, keeps⟩ := writeObject_refused_keeps_iff
      (eval_quickObject_failed reopened key (encodeMetaKey key) ttl opened.recreatable failed)
      opened.notLive
    rw [loads]
    refine ⟨ret, "OK", after, dumpObject_isError.2 object loads failed, run, idle, keeps.trans ?_⟩
    simp [collection]

end Restoring

section Failing

variable {world : World} {key data : Bytes} {ttl : Int64}

/-- A restore over a live key keeps the store in an error unless the key is deleted for a dump that
is refused. -/
theorem restore_live_keeps_iff (runtime : Runtime) (nonneg : 0 ≤ ttl)
    (live : MetaLive world.db key) (replace : Bool) :
    RestoreKeeps world.db ((restore runtime key ttl data replace).eval atomically world) ↔
      ¬(replace = true ∧ DumpFails runtime data) := by
  have readable := metaReadable_of_live live
  cases replace with
  | false =>
      rw [eval_restore_busy runtime key data nonneg live readable]
      exact iff_of_true (restoreKeeps_same rfl) (by simp)
  | true =>
      obtain ⟨metaVal, reopened, opened, _, run⟩ :=
        eval_restore_forgets runtime data nonneg live readable
      rw [run]
      by_cases fails : DumpFails runtime data
      · obtain ⟨ret, val, after, error, answered, idle, _⟩ :=
          restoreObject_refused_keeps_iff opened fails ttl
        rw [answered, restoreKeeps_error_iff error]
        exact iff_of_false (fun same => idle (same ▸ live)) (by simp [fails])
      · exact iff_of_true (restoreObject_accepted opened fails ttl _) (by simp [fails])

/-- A restore over no metadata, or that of a deleted key, keeps the store in an error unless it
stores an expiry behind refused elements. -/
theorem restore_idle_keeps_iff (runtime : Runtime) (nonneg : 0 ≤ ttl)
    (idle : ¬MetaLive world.db key) (readable : MetaReadable world.db key) (replace : Bool) :
    RestoreKeeps world.db ((restore runtime key ttl data replace).eval atomically world) ↔
      ¬(DumpFails runtime data ∧ (∃ object, dumpObject runtime data = .ok object) ∧
        ExpiryChanges world key ttl) := by
  have opened := Reopened.of_deleted readable idle
  rw [eval_restore_idle runtime key data replace nonneg idle readable]
  by_cases fails : DumpFails runtime data
  · obtain ⟨ret, val, after, error, answered, _, keeps⟩ :=
      restoreObject_refused_keeps_iff opened fails ttl
    rw [answered, restoreKeeps_error_iff error, keeps]
    simp [fails]
  · exact iff_of_true (restoreObject_accepted opened fails ttl _) (by simp [fails])

/-- Under metadata that cannot be read no value is written, but the expiry of a collection is. -/
theorem restore_headless_keeps_iff (runtime : Runtime) (nonneg : 0 ≤ ttl) {metaVal : Bytes}
    (found : world.db.get (encodeMetaKey key) = some metaVal)
    (headless : decodeMetaHeader metaVal = none) (replace : Bool) :
    RestoreKeeps world.db ((restore runtime key ttl data replace).eval atomically world) ↔
      ¬(4 ≤ metaVal.length ∧ (∃ object, dumpObject runtime data = .ok object ∧
        object.isString = false) ∧ ExpiryChanges world key ttl) := by
  have read : (dbGet (encodeMetaKey key)).eval atomically world = (.ok metaVal, world) :=
    Prod.ext (congrArg ReadStatus.ofOption found) rfl
  have notLive : metaVal[posDel]? ≠ some keyEnabledMask := by
    intro enabled
    have readable := metaReadable_of_live ⟨metaVal, found, enabled⟩ metaVal found
    rw [headless] at readable
    cases readable
  have idle : ¬MetaLive world.db key := by
    rintro ⟨stored, found', enabled⟩
    obtain rfl := Option.some_inj.mp (found.symm.trans found')
    exact notLive enabled
  rw [restore, if_neg (Int64.not_lt.mpr nonneg), eval_recordKeyLock, Program.eval_bind, read]
  simp only [if_neg notLive, Program.eval_ite]
  split_ifs with short
  · exact iff_of_true (restoreKeeps_same rfl) fun damage => absurd short (by omega)
  have nonempty : metaVal ≠ [] := by
    rintro rfl
    simp at short
  rw [restoreObject_eq, and_iff_right (by omega : 4 ≤ metaVal.length)]
  cases loads : dumpObject runtime data with
  | error failure => cases failure with
    | code ret => exact iff_of_true (restoreKeeps_same rfl) (by simp)
    | crash crash => exact iff_of_true restoreKeeps_crash (by simp)
  | ok object =>
      obtain ⟨after, run, _, keeps⟩ := writeObject_refused_keeps_iff
        (eval_quickObject_headless world key (encodeMetaKey key) ttl nonempty headless object) idle
      simp only [run]
      rw [restoreKeeps_error_iff (by decide), keeps]
      simp

end Failing

section Claim

variable {world : World} {key data : Bytes} {ttl : Int64}

/-- RESTORE keeps the store in an error unless it damages it. -/
theorem procRestore_keeps_iff (runtime : Runtime) (world : World) (key data : Bytes)
    (nonneg : 0 ≤ ttl) (replace : Bool) :
    ErrorKeeps world.db ((procRestore runtime key ttl data replace).eval atomically world) ↔
      ¬RestoreDamages runtime world key ttl data replace := by
  rw [eval_procRestore_reply runtime world key data replace nonneg]
  change RestoreKeeps world.db ((restore runtime key ttl data replace).eval atomically world) ↔ _
  by_cases live : MetaLive world.db key
  · rw [restore_live_keeps_iff runtime nonneg live replace, not_iff_not]
    constructor
    · rintro ⟨rfl, fails⟩
      exact .replaced live fails
    · intro damages
      cases damages with
      | replaced _ fails => exact ⟨rfl, fails⟩
      | unread idle => exact absurd live idle
      | unreadable found _ headless =>
          have readable := metaReadable_of_live live _ found
          rw [headless] at readable
          cases readable
  by_cases readable : MetaReadable world.db key
  · rw [restore_idle_keeps_iff runtime nonneg live readable replace, not_iff_not]
    constructor
    · rintro ⟨⟨ret, failed⟩ | ⟨object, ret, loads, failed⟩, ⟨object', loads'⟩, expiry⟩
      · rw [failed] at loads'
        cases loads'
      · exact .unread live readable loads failed expiry
    · intro damages
      cases damages with
      | replaced alive => exact absurd alive live
      | unread _ _ loads fails expiry => exact ⟨Or.inr ⟨_, _, loads, fails⟩, ⟨_, loads⟩, expiry⟩
      | unreadable found _ headless =>
          have header := readable _ found
          rw [headless] at header
          cases header
  · obtain ⟨metaVal, found, headless⟩ := by
      simpa only [MetaReadable, not_forall, Option.not_isSome_iff_eq_none] using readable
    rw [restore_headless_keeps_iff runtime nonneg found headless replace, not_iff_not]
    constructor
    · rintro ⟨long, ⟨object, loads, collection⟩, expiry⟩
      exact .unreadable found long headless loads collection expiry
    · intro damages
      cases damages with
      | replaced alive => exact absurd alive live
      | unread _ header => exact absurd header readable
      | unreadable found' long _ loads collection expiry =>
          obtain rfl := Option.some_inj.mp (found.symm.trans found')
          exact ⟨long, ⟨_, loads, collection⟩, expiry⟩

/-- A RESTORE as it is sent keeps the store in an error unless it is read and damages it. -/
theorem procRestoreRequest_keeps_iff (runtime : Runtime) (world : World)
    (key argument data : Bytes) (options : List Bytes) :
    ErrorKeeps world.db
        ((procRestoreRequest runtime key argument data options).eval atomically world) ↔
      ∀ ttl replace, int64Argument argument = some ttl → 0 ≤ ttl →
        replaceOption options = some replace →
        ¬RestoreDamages runtime world key ttl data replace := by
  rw [procRestoreRequest]
  cases read : int64Argument argument with
  | none => exact iff_of_true (fun _ _ => rfl) (by simp)
  | some ttl =>
      simp only [Program.eval_ite]
      split_ifs with negative
      · refine iff_of_true (fun _ _ => rfl) fun ttl' replace same nonneg => ?_
        cases same
        exact absurd negative (Int64.not_lt.mpr nonneg)
      have nonneg := Int64.not_lt.mp negative
      cases option : replaceOption options with
      | none => exact iff_of_true (fun _ _ => rfl) (by simp)
      | some replace =>
          simp only [procRestore_keeps_iff runtime world key data nonneg replace]
          simp [nonneg]

end Claim

section Samples

/-- The dump of a set that ends in front of its only member. -/
def cutDump : Bytes := [2, 1, 8, 0, 61, 219, 149, 113, 27, 193, 161, 36]

/-- `RESTORE k 0 "" REPLACE` fails and deletes `k`, and the cut dump fails and leaves an expiry. -/
theorem procRestoreRequest_damages :
    ¬ErrorKeeps (stringWorld [107] [97]).db
        ((procRestoreRequest (sampleRuntime 0) [107] [48] [] [[82, 69, 80, 76, 65, 67, 69]]).eval
          atomically (stringWorld [107] [97])) ∧
      ¬ErrorKeeps emptyServer.world.db
        ((procRestoreRequest (sampleRuntime 0x24a1c11b7195db3d) [107] [53] cutDump []).eval
          atomically emptyServer.world) := by
  have never : int64Argument [48] = some 0 := by decide +kernel
  have later : int64Argument [53] = some 5 := by decide +kernel
  rw [procRestoreRequest, procRestoreRequest, never, later]
  refine ⟨fun keeps => ?_, fun keeps => ?_⟩
  · have flag := congrArg (SortedMap.get · (encodeMetaKey [107])) (keeps invalidDumpStr rfl)
    exact absurd flag (by decide)
  · have expiry := congrArg (SortedMap.get · (encodeEsetKey [107])) (keeps (-1) rfl)
    exact absurd expiry (by decide)

end Samples

end Vcdb
