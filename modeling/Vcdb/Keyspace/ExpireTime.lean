import Vcdb.Keyspace.Kv
import Vcdb.Keyspace.RestoreWrite

/-!
# The instant a key expires at

The commands that set an expiry compute its instant in 64 bits from one reading of the clock and
compare it with a second one.
-/

namespace Vcdb

/-- The expiry stored for a key. -/
def storedExpiry (db : DB) (key : Bytes) : Option Int64 :=
  (db.get (encodeEsetKey key)).map fun strScore => (readHostOrder64 strScore).toInt64

/-- The metadata of a key, if there is any, can be read. -/
def MetaReadable (db : DB) (key : Bytes) : Prop :=
  ∀ metaVal, db.get (encodeMetaKey key) = some metaVal → (decodeMetaHeader metaVal).isSome

/-- The key is live and expires at an instant. -/
def ExpiresAt (db : DB) (key : Bytes) (instant : Int) : Prop :=
  MetaLive db key ∧ ∃ ts, storedExpiry db key = some ts ∧ ts.toInt = instant

/-- Replies that tell that nothing was done. -/
def Reply.Refuses : Reply → Prop
  | .error _ | .errorInfo _ | .nil => True
  | .int n => n = 0
  | _ => False

/-- What a command that sets an expiry is for: it changes nothing, or its key expires at the
instant asked for, or the key is gone because that instant is over at the last reading. -/
def ExpiryMeets (key : Bytes) (instant : Int) (last : Int64) (world : World)
    (outcome : Reply × World) : Prop :=
  (outcome.1.Refuses ∧ outcome.2.db = world.db) ∨
    ExpiresAt outcome.2.db key instant ∨
    (instant ≤ last.toInt ∧ ¬MetaLive outcome.2.db key)

section Expiry

variable {world : World} {key : Bytes}

theorem encodeEsetKey_ne_metaKey (key other : Bytes) : encodeEsetKey key ≠ encodeMetaKey other := by
  intro same
  exact absurd (List.cons.inj same).1 (by decide)

theorem encodeEscoreKey_ne_esetKey (key other : Bytes) (score : UInt64) :
    encodeEscoreKey key score ≠ encodeEsetKey other := by
  intro same
  exact absurd (List.cons.inj same).1 (by decide)

theorem encodeEscoreKey_ne_metaKey (key other : Bytes) (score : UInt64) :
    encodeEscoreKey key score ≠ encodeMetaKey other := by
  intro same
  exact absurd (List.cons.inj same).1 (by decide)

theorem metaLive_header (live : MetaLive world.db key) (readable : MetaReadable world.db key) :
    ∃ metaVal header rest, world.db.get (encodeMetaKey key) = some metaVal ∧
      decodeMetaHeader metaVal = some (header, rest) ∧ header.del = keyEnabledMask := by
  obtain ⟨metaVal, found, enabled⟩ := live
  obtain ⟨⟨header, rest⟩, decoded⟩ := Option.isSome_iff_exists.mp (readable metaVal found)
  have flag := (decodeMetaHeader_eq_some decoded).2
  rw [enabled, Option.some_inj] at flag
  exact ⟨metaVal, header, rest, found, decoded, flag.symm⟩

theorem eval_checkMetaKey_live (world : World) {key : Bytes} (live : MetaLive world.db key) :
    (checkMetaKey key).eval atomically world = (1, world) := by
  obtain ⟨metaVal, found, enabled⟩ := live
  have read : (dbGet (encodeMetaKey key)).eval atomically world = (.ok metaVal, world) :=
    Prod.ext (congrArg ReadStatus.ofOption found) rfl
  have flag : ¬keyEnabledMask = keyDeleteMask := enabled_ne_delete
  rw [checkMetaKey, Program.eval_bind, read]
  simp only [enabled, if_neg flag]
  rfl

theorem eval_checkMetaKey_idle (world : World) {key : Bytes} (idle : ¬MetaLive world.db key)
    (readable : MetaReadable world.db key) :
    (checkMetaKey key).eval atomically world = (0, world) := by
  have read : (dbGet (encodeMetaKey key)).eval atomically world =
      (ReadStatus.ofOption (world.db.get (encodeMetaKey key)), world) := rfl
  rw [checkMetaKey, Program.eval_bind, read]
  cases found : world.db.get (encodeMetaKey key) with
  | none => rfl
  | some metaVal =>
      obtain ⟨⟨header, rest⟩, decoded⟩ := Option.isSome_iff_exists.mp (readable metaVal found)
      have flag := (decodeMetaHeader_eq_some decoded).2
      have deleted : header.del = keyDeleteMask := by
        refine (decodeMetaHeader_flag decoded).resolve_right fun enabled => idle
          ⟨metaVal, found, ?_⟩
        rw [flag, enabled]
      rw [deleted] at flag
      simp only [ReadStatus.ofOption, flag, if_true]
      rfl

/-- The updates that store an expiry, given the one that is stored. -/
def expiryBatch (db : DB) (key : Bytes) (ts : Int64) : WriteBatch :=
  (match storedExpiry db key with
    | some old => if old ≠ ts then [.delete (encodeEscoreKey key old.toUInt64)] else []
    | none => []) ++
    [.put (encodeEsetKey key) (hostOrder64 ts.toUInt64), .put (encodeEscoreKey key ts.toUInt64) []]

theorem eval_esetOne (world : World) (key : Bytes) (batch : WriteBatch) (ts : Int64) :
    (esetOne key batch ts).eval atomically world =
      ((1, batch ++ expiryBatch world.db key ts), world) := by
  have read : (dbGet (encodeEsetKey key)).eval atomically world =
      (ReadStatus.ofOption (world.db.get (encodeEsetKey key)), world) := rfl
  rw [esetOne, Program.eval_bind, eget, Program.eval_bind, read, expiryBatch, storedExpiry]
  cases world.db.get (encodeEsetKey key) with
  | none => rfl
  | some strScore =>
      simp only [ReadStatus.ofOption, Option.map_some, Program.pure_eq_done, Program.eval_done]
      by_cases same : (readHostOrder64 strScore).toInt64 = ts
      · simp [same]
      · simp [same]

theorem isExpiry_expiryBatch (db : DB) (key : Bytes) (ts : Int64) :
    ∀ op ∈ expiryBatch db key ts, IsExpiry op.key := by
  have puts : ∀ op ∈ ([.put (encodeEsetKey key) (hostOrder64 ts.toUInt64),
      .put (encodeEscoreKey key ts.toUInt64) []] : WriteBatch), IsExpiry op.key := by
    simp only [List.mem_cons, List.not_mem_nil, or_false]
    rintro op (rfl | rfl)
    · exact Or.inl rfl
    · exact Or.inr rfl
  intro op mem
  rcases List.mem_append.mp mem with old | new
  · cases stored : storedExpiry db key with
    | none =>
        rw [stored] at old
        cases old
    | some previous =>
        rw [stored] at old
        simp only at old
        split_ifs at old
        · obtain rfl := List.mem_singleton.mp old
          exact Or.inr rfl
        · cases old
  · exact puts op new

/-- Whatever the updates meet, the expiry they store is found afterwards. -/
theorem storedExpiry_expiryBatch (db before : DB) (key : Bytes) (ts : Int64) :
    storedExpiry ((expiryBatch db key ts).apply before) key = some ts := by
  rw [expiryBatch, WriteBatch.apply_append, storedExpiry]
  have found : ∀ start : DB, (WriteBatch.apply [.put (encodeEsetKey key)
      (hostOrder64 ts.toUInt64), .put (encodeEscoreKey key ts.toUInt64) []] start).get
        (encodeEsetKey key) = some (hostOrder64 ts.toUInt64) := by
    intro start
    exact ((SortedMap.get_put _ _ _ _).trans
      (if_neg (encodeEscoreKey_ne_esetKey _ _ _).symm)).trans (SortedMap.get_put_self _ _ _)
  rw [found, Option.map_some, readHostOrder64_hostOrder64]
  rfl

/-- Updates of expiries leave the metadata alone. -/
theorem metaLive_apply_expiry {ops : WriteBatch} (expiry : ∀ op ∈ ops, IsExpiry op.key) (db : DB)
    (key : Bytes) :
    MetaLive (ops.apply db) key ↔ MetaLive db key := by
  have same : (ops.apply db).get (encodeMetaKey key) = db.get (encodeMetaKey key) := by
    apply WriteBatch.get_apply_of_untouched
    intro op mem eq
    exact (isContent_metaKey key).not_expiry (eq ▸ expiry op mem)
  rw [MetaLive, same]
  rfl

/-- Deleting a live key adds updates that end its life whatever they meet. -/
theorem eval_delKeyInternal_live (world : World) {key : Bytes} (live : MetaLive world.db key)
    (readable : MetaReadable world.db key) (batch : WriteBatch) :
    ∃ ops, (delKeyInternal key batch).eval atomically world =
        ((1, batch ++ ops), world.delFastKey key) ∧
      ∀ before : DB, ¬MetaLive (WriteBatch.apply ops before) key := by
  obtain ⟨metaVal, header, rest, found, decoded, enabled⟩ := metaLive_header live readable
  have read : (dbGet (encodeMetaKey key)).eval atomically world = (.ok metaVal, world) :=
    Prod.ext (congrArg ReadStatus.ofOption found) rfl
  obtain ⟨ops, marked, expiry⟩ := eval_markKeyDeleted_raw world key batch (encodeMetaKey key)
    decoded enabled
  refine ⟨[.put (encodeMetaKey key) (metaVal.set posDel keyDeleteMask),
    .put (encodeDeleteKey key header.version) []] ++ ops, ?_, fun before => ?_⟩
  · rw [delKeyInternal, Program.eval_bind, read]
    simp only [if_pos (recreatable_set decoded).1]
    rw [marked, List.append_assoc]
  · rw [WriteBatch.apply_append, metaLive_apply_expiry expiry]
    rintro ⟨stored, same, flag⟩
    have notMark : encodeMetaKey key ≠ encodeDeleteKey key header.version := by
      intro eq
      exact absurd (List.cons.inj eq).1 (by decide)
    have flagged : (WriteBatch.apply [.put (encodeMetaKey key) (metaVal.set posDel keyDeleteMask),
        .put (encodeDeleteKey key header.version) []] before).get (encodeMetaKey key) =
          some (metaVal.set posDel keyDeleteMask) :=
      ((SortedMap.get_put _ _ _ _).trans (if_neg notMark)).trans (SortedMap.get_put_self _ _ _)
    rw [flagged, Option.some_inj] at same
    have inside : posDel < metaVal.length := (recreatable_set decoded).1
    rw [← same, List.getElem?_set_self inside] at flag
    exact enabled_ne_delete (Option.some_inj.mp flag).symm

/-- What `expireAt` does on its own: an instant still to come is stored for a live key only, any
other deletes the key. -/
theorem expireAt_cases (world : World) (key : Bytes) (ts : Int64)
    (readable : MetaReadable world.db key) :
    ∃ ret batch after, (expireAt key ts []).eval atomically world = ((ret, batch), after) ∧
      ((world.clock 0 < ts ∧ ¬MetaLive world.db key ∧ ret = 0 ∧ after.db = world.db) ∨
        (world.clock 0 < ts ∧ MetaLive world.db key ∧ ret = 2 ∧ MetaLive after.db key ∧
          storedExpiry after.db key = some ts) ∨
        (ts ≤ world.clock 0 ∧ ret = 2 ∧ ¬MetaLive after.db key)) := by
  have nonneg : ¬(1 : Int) ≤ 0 := by decide
  rw [expireAt, if_pos rfl, eval_recordKeyLock, expireAtInternal, Program.eval_bind, eval_timeMs]
  by_cases past : ts ≤ world.clock 0
  · simp only [if_pos past, Program.eval_bind]
    by_cases live : MetaLive world.db key
    · obtain ⟨ops, deleted, ends⟩ := eval_delKeyInternal_live world.tick live readable []
      refine ⟨2, ops, (world.tick.delFastKey key).withDB (WriteBatch.apply ops world.db), ?_,
        Or.inr (Or.inr ⟨past, rfl, ends world.db⟩)⟩
      rw [deleted]
      simp
    · have deleted := eval_delKeyInternal_deleted world.tick [] readable live
      refine ⟨2, [], world.tick.withDB (WriteBatch.apply [] world.db), ?_,
        Or.inr (Or.inr ⟨past, rfl, live⟩)⟩
      rw [deleted]
      simp
  · have future : world.clock 0 < ts := Int64.not_le.mp past
    simp only [if_neg past, if_true, Program.eval_bind]
    by_cases live : MetaLive world.db key
    · have stays := metaLive_apply_expiry (isExpiry_expiryBatch world.db key ts) world.db key
      refine ⟨2, expiryBatch world.db key ts,
        World.withDB { world.tick with expiration := world.expiration.insertFastKey key ts }
          ((expiryBatch world.db key ts).apply world.db), ?_,
        Or.inr (Or.inl ⟨future, live, rfl, stays.mpr live, storedExpiry_expiryBatch _ _ _ _⟩)⟩
      rw [eval_checkMetaKey_live world.tick live]
      simp only [if_neg nonneg, Program.eval_bind, eval_esetOne]
      rfl
    · rw [eval_checkMetaKey_idle world.tick live readable]
      exact ⟨0, [], world.tick, rfl, Or.inl ⟨future, live, rfl, rfl⟩⟩

end Expiry

/-! ### EXPIRE, PEXPIRE, EXPIREAT and PEXPIREAT -/

/-- Milliseconds in a unit of time. -/
def TimeUnit.milliseconds : TimeUnit → Int
  | second => 1000
  | millisecond => 1

/-- An instant survives being computed in 64 bits: it fits, or it is one nobody waits for. -/
def InstantKept (db : DB) (key : Bytes) (instant : Int) (last : Int64) : Prop :=
  (Int64.ofInt instant).toInt = instant ∨
    (last < Int64.ofInt instant ∧ ¬MetaLive db key) ∨
    (Int64.ofInt instant ≤ last ∧ instant ≤ last.toInt)

/-- Replies to the two results that `expireAt` has. -/
def RepliesFor (reply : Int → Reply) : Prop := (reply 0).Refuses ∧ ¬(reply 2).Refuses

theorem expiryMeets_expireAt_iff (world : World) (key : Bytes) (instant : Int) {reply : Int → Reply}
    (replies : RepliesFor reply) (readable : MetaReadable world.db key) {ret : Int}
    {batch : WriteBatch} {after : World}
    (run : (expireAt key (Int64.ofInt instant) []).eval atomically world = ((ret, batch), after)) :
    ExpiryMeets key instant (world.clock 0) world (reply ret, after) ↔
      InstantKept world.db key instant (world.clock 0) := by
  obtain ⟨ret', batch', after', run', cases⟩ := expireAt_cases world key (Int64.ofInt instant)
    readable
  rw [run'] at run
  obtain ⟨⟨rfl, rfl⟩, rfl⟩ : (ret' = ret ∧ batch' = batch) ∧ after' = after := by simpa using run
  rcases cases with ⟨future, idle, rfl, same⟩ | ⟨future, live, rfl, stays, stored⟩ |
    ⟨past, rfl, gone⟩
  · exact iff_of_true (Or.inl ⟨replies.1, same⟩) (Or.inr (Or.inl ⟨future, idle⟩))
  · constructor
    · rintro (⟨refused, _⟩ | ⟨_, ts, found, eq⟩ | ⟨_, gone⟩)
      · exact absurd refused replies.2
      · rw [stored, Option.some_inj] at found
        exact Or.inl (found ▸ eq)
      · exact absurd stays gone
    · rintro (fits | ⟨_, idle⟩ | ⟨past, _⟩)
      · exact Or.inr (Or.inl ⟨stays, _, stored, fits⟩)
      · exact absurd live idle
      · exact absurd past (Int64.not_le.mpr future)
  · constructor
    · rintro (⟨refused, _⟩ | ⟨live, _⟩ | ⟨elapsed, _⟩)
      · exact absurd refused replies.2
      · exact absurd live gone
      · exact Or.inr (Or.inr ⟨past, elapsed⟩)
    · rintro (fits | ⟨future, _⟩ | ⟨_, elapsed⟩)
      · refine Or.inr (Or.inr ⟨?_, gone⟩)
        rw [← fits]
        exact Int64.le_iff_toInt_le.mp past
      · exact absurd past (Int64.not_le.mpr future)
      · exact Or.inr (Or.inr ⟨elapsed, gone⟩)

theorem ofInt_instant (now amount : Int64) :
    Int64.ofInt (now.toInt + 1000 * amount.toInt) = now + amount * 1000 := by
  rw [Int64.ofInt_add, Int64.ofInt_mul, Int64.ofInt_toInt, Int64.ofInt_toInt, Int64.mul_comm]
  rfl

/-- The instant that EXPIRE and PEXPIRE compute is the 64-bit form of the one asked for. -/
theorem convert2ms_instant {unit : TimeUnit} {amount ttl : Int64}
    (converted : convert2ms amount unit = .ok ttl) (now : Int64) :
    now + ttl = Int64.ofInt (now.toInt + unit.milliseconds * amount.toInt) := by
  cases unit with
  | second =>
      rw [convert2ms] at converted
      split_ifs at converted
      obtain rfl := Except.ok.inj converted
      exact (ofInt_instant now amount).symm
  | millisecond =>
      rw [convert2ms] at converted
      split_ifs at converted
      obtain rfl := Except.ok.inj converted
      rw [TimeUnit.milliseconds, one_mul, Int64.ofInt_add, Int64.ofInt_toInt, Int64.ofInt_toInt]

theorem convert2ms_error {unit : TimeUnit} {amount : Int64} {code : Int}
    (refused : convert2ms amount unit = .error code) : code = invalidExTime := by
  cases unit with
  | second =>
      rw [convert2ms] at refused
      split_ifs at refused
      exact (Except.error.inj refused).symm
  | millisecond =>
      rw [convert2ms] at refused
      split_ifs at refused
      exact (Except.error.inj refused).symm

theorem expiryMeets_of_refused {key : Bytes} {instant : Int} {last : Int64} {world after : World}
    {reply : Reply} (refused : reply.Refuses) (same : after.db = world.db) :
    ExpiryMeets key instant last world (reply, after) := Or.inl ⟨refused, same⟩

/-- EXPIRE and PEXPIRE do what they are for unless their instant is lost in 64 bits. -/
theorem expireIn_meets_iff (world : World) (key argument : Bytes) (unit : TimeUnit)
    {reply : Int → Reply} (replies : RepliesFor reply) (readable : MetaReadable world.db key) :
    let instant := (world.clock 0).toInt +
      unit.milliseconds * ((string2ll argument).getD 0).toInt
    ExpiryMeets key instant (world.clock 1) world
        ((expireIn unit reply key argument).eval atomically world) ↔
      string2ll argument = none ∨
        (∃ code, convert2ms ((string2ll argument).getD 0) unit = .error code) ∨
        InstantKept world.db key instant (world.clock 1) := by
  intro instant
  rw [expireIn]
  cases parsed : string2ll argument with
  | none => exact iff_of_true (expiryMeets_of_refused trivial rfl) (Or.inl rfl)
  | some amount =>
      cases converted : convert2ms amount unit with
      | error code =>
          obtain rfl := convert2ms_error converted
          refine iff_of_true ?_ (Or.inr (Or.inl ⟨invalidExTime, converted⟩))
          simp only [expire, converted]
          exact expiryMeets_of_refused trivial rfl
      | ok ttl =>
          have shifted : world.clock 0 + ttl = Int64.ofInt instant := by
            rw [convert2ms_instant converted]
            simp only [instant, parsed, Option.getD_some]
          obtain ⟨ret, batch, after, run, cases⟩ :=
            expireAt_cases world.tick key (Int64.ofInt instant) readable
          have nonneg : ¬ret < 0 := by
            rcases cases with ⟨_, _, rfl, _⟩ | ⟨_, _, rfl, _⟩ | ⟨_, rfl, _⟩ <;> decide
          have met := expiryMeets_expireAt_iff world.tick key instant replies readable run
          have reply : (do
              let ret ← expire key amount unit
              if ret < 0 then return .error ret else return reply ret : Command Reply).eval
                atomically world = (reply ret, after) := by
            simp only [expire, converted, Program.eval_bind, eval_timeMs, shifted, run]
            exact congrArg (fun program => Program.eval atomically program after) (if_neg nonneg)
          have notNone : ¬some amount = none := by simp
          have notError : ¬∃ code, convert2ms ((some amount).getD 0) unit = .error code := by
            rintro ⟨code, refused⟩
            rw [Option.getD_some, converted] at refused
            cases refused
          simp only [reply, notNone, notError, false_or]
          exact met

/-- EXPIREAT and PEXPIREAT take one reading of the clock only. -/
theorem expireAtInstant_meets_iff (world : World) (key : Bytes) (instant : Int)
    (readable : MetaReadable world.db key) :
    ExpiryMeets key instant (world.clock 0) world
        ((expireAtInstant key (Int64.ofInt instant)).eval atomically world) ↔
      InstantKept world.db key instant (world.clock 0) := by
  obtain ⟨ret, batch, after, run, cases⟩ :=
    expireAt_cases world key (Int64.ofInt instant) readable
  have nonneg : ¬ret < 0 := by
    rcases cases with ⟨_, _, rfl, _⟩ | ⟨_, _, rfl, _⟩ | ⟨_, rfl, _⟩ <;> decide
  have replies : RepliesFor Reply.int := ⟨rfl, fun refused => absurd
    (show (2 : Int) = 0 from refused) (by decide)⟩
  have reply : (expireAtInstant key (Int64.ofInt instant)).eval atomically world =
      (.int ret, after) := by
    simp only [expireAtInstant, Program.eval_bind, run]
    exact congrArg (fun program => Program.eval atomically program after) (if_neg nonneg)
  rw [reply]
  exact expiryMeets_expireAt_iff world key instant replies readable run

/-- The instants that EXPIREAT and PEXPIREAT are given, in milliseconds. -/
def instantAt (unit : TimeUnit) (argument : Bytes) : Int :=
  unit.milliseconds * ((string2ll argument).getD 0).toInt

theorem procExpireat_meets_iff (world : World) (key argument : Bytes)
    (readable : MetaReadable world.db key) :
    ExpiryMeets key (instantAt .second argument) (world.clock 0) world
        ((procExpireat key argument).eval atomically world) ↔
      string2ll argument = none ∨
        InstantKept world.db key (instantAt .second argument) (world.clock 0) := by
  rw [procExpireat, instantAt]
  cases string2ll argument with
  | none => exact iff_of_true (expiryMeets_of_refused trivial rfl) (Or.inl rfl)
  | some ts =>
      have scaled : ts * 1000 = Int64.ofInt (1000 * ts.toInt) := by
        rw [Int64.ofInt_mul, Int64.ofInt_toInt, Int64.mul_comm]
        rfl
      simp only [scaled, reduceCtorEq, false_or]
      exact expireAtInstant_meets_iff world key _ readable

theorem procPexpireat_meets_iff (world : World) (key argument : Bytes)
    (readable : MetaReadable world.db key) :
    ExpiryMeets key (instantAt .millisecond argument) (world.clock 0) world
        ((procPexpireat key argument).eval atomically world) ↔
      string2ll argument = none ∨
        InstantKept world.db key (instantAt .millisecond argument) (world.clock 0) := by
  rw [procPexpireat, instantAt]
  cases string2ll argument with
  | none => exact iff_of_true (expiryMeets_of_refused trivial rfl) (Or.inl rfl)
  | some ts =>
      have same : ts = Int64.ofInt (TimeUnit.millisecond.milliseconds * ts.toInt) := by
        rw [TimeUnit.milliseconds, one_mul, Int64.ofInt_toInt]
      have met := expireAtInstant_meets_iff world key
        (TimeUnit.millisecond.milliseconds * ts.toInt) readable
      rw [← same] at met
      simp only [Option.getD_some, reduceCtorEq, false_or]
      exact met

/-! ### SET with EX or PX, SETEX and PSETEX -/

theorem metaLive_of_kvRead {db : DB} {key : Bytes} {kv : KvMetaVal}
    (read : kvRead (db.get (encodeMetaKey key)) = (1, kv)) : MetaLive db key := by
  cases found : db.get (encodeMetaKey key) with
  | none =>
      rw [found] at read
      cases read
  | some metaVal =>
      rw [found, kvRead] at read
      cases decoded : decodeMetaHeader metaVal with
      | none =>
          simp only [KvMetaVal.decodeMetaVal, decoded] at read
          cases read
      | some parsed =>
          obtain ⟨header, rest⟩ := parsed
          have flag := (decodeMetaHeader_eq_some decoded).2
          refine ⟨metaVal, found, ?_⟩
          rcases decodeMetaHeader_flag decoded with deleted | enabled
          · simp [KvMetaVal.decodeMetaVal, decoded, deleted] at read
          · rw [flag, enabled]

theorem not_metaLive_of_kvRead {db : DB} {key : Bytes} {kv : KvMetaVal}
    (read : kvRead (db.get (encodeMetaKey key)) = (0, kv)) : ¬MetaLive db key := by
  rintro ⟨metaVal, found, enabled⟩
  rw [found, kvRead] at read
  cases decoded : decodeMetaHeader metaVal with
  | none =>
      simp only [KvMetaVal.decodeMetaVal, decoded] at read
      cases read
  | some parsed =>
      obtain ⟨⟨type, version, del⟩, rest⟩ := parsed
      have flag := (decodeMetaHeader_eq_some decoded).2
      rw [enabled, Option.some_inj] at flag
      simp only at flag
      subst flag
      by_cases kind : type = DataType.kv
      · simp [KvMetaVal.decodeMetaVal, decoded, enabled_ne_delete, kind] at read
      · simp [KvMetaVal.decodeMetaVal, decoded, enabled_ne_delete, kind, wrongTypeErr] at read

/-- An instant for a key to be set survives: the command does nothing, or the instant fits and is
still to come, or it is over and the key existed. -/
def SetInstantKept (db : DB) (key : Bytes) (flags : SetFlags) (instant : Int) (last : Int64) :
    Prop :=
  let found := (kvRead (db.get (encodeMetaKey key))).1
  found < 0 ∨ (found = 0 ∧ flags.xx) ∨ (found = 1 ∧ flags.nx) ∨
    (last < Int64.ofInt instant ∧ (Int64.ofInt instant).toInt = instant) ∨
    (Int64.ofInt instant ≤ last ∧ found = 1 ∧ instant ≤ last.toInt) ∨
    (Int64.ofInt instant ≤ last ∧ found = 0 ∧
      ∃ ts, storedExpiry db key = some ts ∧ ts.toInt = instant)

/-- An expiry still to come joins a batch that is committed later. -/
theorem eval_expireAt_joins (world : World) (key : Bytes) (batch : WriteBatch) {ts : Int64}
    (future : world.clock 0 < ts) :
    ∃ after, (expireAt key ts batch false).eval atomically world =
        ((2, batch ++ expiryBatch world.db key ts), after) ∧ after.db = world.db := by
  have live : ¬(1 : Int) ≤ 0 := by decide
  refine ⟨{ world.tick with expiration := world.expiration.insertFastKey key ts }, ?_, rfl⟩
  rw [expireAt, if_neg (by decide), expireAtInternal, Program.eval_bind, eval_timeMs]
  simp only [if_neg (Int64.not_le.mpr future), Bool.false_eq_true, if_false, Program.pure_eq_done,
    Program.done_bind, if_neg live, Program.eval_bind, eval_esetOne, false_and]
  rfl

/-- A string that has just been put. -/
theorem metaLive_put (db : DB) (key val : Bytes) (version : UInt16) :
    MetaLive (db.put (encodeMetaKey key) (encodeKvVal val version)) key :=
  ⟨_, SortedMap.get_put_self _ _ _,
    (decodeMetaHeader_eq_some (decodeMetaHeader_kvVal val version)).2⟩

theorem storedExpiry_put (db : DB) (key val : Bytes) :
    storedExpiry (db.put (encodeMetaKey key) val) key = storedExpiry db key := by
  rw [storedExpiry, SortedMap.get_put, if_neg (encodeEsetKey_ne_metaKey key key), storedExpiry]

/-- The part of a SET behind the decision to set the key. -/
def setExpiry (key : Bytes) (batch : WriteBatch) (expireMs : Int64) : Command (Int × Int) := do
  let now ← timeMs
  let (_, batch) ← expireAt key (expireMs + now) batch false
  if ← commitBatch batch then return (1, 1) else return (storageErr, 1)

theorem setExpiry_cases (world : World) (key val : Bytes) (version : UInt16) (ttl : Int64)
    (readable : MetaReadable world.db key) :
    ∃ after, (setExpiry key [.put (encodeMetaKey key) (encodeKvVal val version)] ttl).eval
      atomically
        world = ((1, 1), after) ∧
      ((world.clock 1 < ttl + world.clock 0 ∧ MetaLive after.db key ∧
          storedExpiry after.db key = some (ttl + world.clock 0)) ∨
        (ttl + world.clock 0 ≤ world.clock 1 ∧ MetaLive world.db key ∧ ¬MetaLive after.db key) ∨
        (ttl + world.clock 0 ≤ world.clock 1 ∧ ¬MetaLive world.db key ∧ MetaLive after.db key ∧
          storedExpiry after.db key = storedExpiry world.db key)) := by
  have put := metaLive_put world.db key val version
  by_cases past : ttl + world.clock 0 ≤ world.clock 1
  · have elapsed := eval_expireAt_over world.tick key
      [.put (encodeMetaKey key) (encodeKvVal val version)] past
    by_cases live : MetaLive world.db key
    · obtain ⟨ops, deleted, ends⟩ := eval_delKeyInternal_live world.tick.tick live readable
        [.put (encodeMetaKey key) (encodeKvVal val version)]
      rw [deleted] at elapsed
      refine ⟨(world.tick.tick.delFastKey key).withDB (WriteBatch.apply ([.put (encodeMetaKey key)
        (encodeKvVal val version)] ++ ops) world.db), ?_, Or.inr (Or.inl ⟨past, live, ?_⟩)⟩
      · rw [setExpiry, Program.eval_bind, eval_timeMs]
        simp only [Program.eval_bind, elapsed]
        rfl
      · rw [World.db_withDB, WriteBatch.apply_append]
        exact ends _
    · have deleted := eval_delKeyInternal_deleted world.tick.tick
        [.put (encodeMetaKey key) (encodeKvVal val version)] readable live
      rw [deleted] at elapsed
      refine ⟨world.tick.tick.putRecord (encodeMetaKey key) (encodeKvVal val version), ?_,
        Or.inr (Or.inr ⟨past, live, put, storedExpiry_put _ _ _⟩)⟩
      rw [setExpiry, Program.eval_bind, eval_timeMs]
      simp only [Program.eval_bind, elapsed]
      rfl
  · have future : world.tick.clock 0 < ttl + world.clock 0 := Int64.not_le.mp past
    obtain ⟨after, joined, same⟩ := eval_expireAt_joins world.tick key
      [.put (encodeMetaKey key) (encodeKvVal val version)] future
    refine ⟨after.withDB (WriteBatch.apply ([.put (encodeMetaKey key) (encodeKvVal val version)] ++
      expiryBatch world.db key (ttl + world.clock 0)) after.db), ?_,
      Or.inl ⟨future, ?_, ?_⟩⟩
    · rw [setExpiry, Program.eval_bind, eval_timeMs]
      simp only [Program.eval_bind, joined]
      rfl
    · rw [World.db_withDB, WriteBatch.apply_append,
        metaLive_apply_expiry (isExpiry_expiryBatch _ _ _), same]
      exact put
    · rw [World.db_withDB, WriteBatch.apply_append]
      exact storedExpiry_expiryBatch _ _ _ _

section Setting

variable (world : World) (key val : Bytes) {flags : SetFlags} (expiring : flags.ex ∨ flags.px)
  {ttl : Int64} (positive : 0 < ttl) {found : Int} {kv : KvMetaVal}
  (read : kvRead (world.db.get (encodeMetaKey key)) = (found, kv))

include positive read

theorem eval_set_error (failed : found < 0) :
    (Kv.set key val flags ttl).eval atomically world = ((found, 0), world) := by
  have accepted : ¬((flags.ex ∨ flags.px) ∧ ttl ≤ 0) := fun both =>
    absurd both.2 (Int64.not_le.mpr positive)
  simp only [Kv.set, eval_recordKeyLock, setNoLock, setGeneric, if_neg accepted, Program.eval_bind,
    eval_getKvMetaVal, read, if_pos failed, Program.pure_eq_done, Program.eval_done]

include expiring

theorem eval_set_refused (refused : (found = 0 ∧ flags.xx) ∨ (found = 1 ∧ flags.nx)) :
    ∃ ret, 0 ≤ ret ∧ (Kv.set key val flags ttl).eval atomically world = ((ret, 0), world) := by
  have accepted : ¬ttl ≤ 0 := Int64.not_le.mpr positive
  have idle : world.withDB (WriteBatch.apply [] world.db) = world := rfl
  rcases refused with ⟨rfl, xx⟩ | ⟨rfl, nx⟩
  · refine ⟨0, le_rfl, ?_⟩
    simp [Kv.set, setNoLock, setGeneric, accepted, eval_getKvMetaVal, read, xx, expiring, idle]
  · refine ⟨1, by decide, ?_⟩
    simp [Kv.set, setNoLock, setGeneric, accepted, eval_getKvMetaVal, read, nx, expiring, idle]

theorem eval_set_performed (known : found = 0 ∨ found = 1) (absent : ¬(found = 0 ∧ flags.xx))
    (present : ¬(found = 1 ∧ flags.nx)) :
    (Kv.set key val flags ttl).eval atomically world =
      (setExpiry key [.put (encodeMetaKey key) (encodeKvVal val kv.version)] ttl).eval atomically
        world := by
  have accepted : ¬ttl ≤ 0 := Int64.not_le.mpr positive
  rcases known with rfl | rfl
  · have xx : flags.xx = false := by simpa using absent
    simp [Kv.set, setNoLock, setGeneric, accepted, eval_getKvMetaVal, read, xx, expiring, setExpiry]
  · have nx : flags.nx = false := by simpa using present
    simp [Kv.set, setNoLock, setGeneric, accepted, eval_getKvMetaVal, read, nx, expiring, setExpiry]

end Setting

/-- Replies to a SET: an error, a refusal of the condition asked for, and success. -/
structure SetReplies (flags : SetFlags) (reply : Int → Int → Reply) : Prop where
  error : ∀ ret added, ret < 0 → (reply ret added).Refuses
  refusal : ∀ ret, 0 ≤ ret → flags.nx ∨ flags.xx → (reply ret 0).Refuses
  success : ¬(reply 1 1).Refuses

/-- A SET with an expiry does what it is for unless its instant is lost. -/
theorem set_meets_iff (world : World) (key val : Bytes) {flags : SetFlags}
    (expiring : flags.ex ∨ flags.px) {ttl : Int64} (positive : 0 < ttl)
    {reply : Int → Int → Reply} (replies : SetReplies flags reply)
    (readable : MetaReadable world.db key) {instant : Int}
    (shifted : ttl + world.clock 0 = Int64.ofInt instant) {ret added : Int} {after : World}
    (run : (Kv.set key val flags ttl).eval atomically world = ((ret, added), after)) :
    ExpiryMeets key instant (world.clock 1) world (reply ret added, after) ↔
      SetInstantKept world.db key flags instant (world.clock 1) := by
  obtain ⟨found, kv, read⟩ : ∃ found kv, kvRead (world.db.get (encodeMetaKey key)) = (found, kv) :=
    ⟨_, _, rfl⟩
  have cases := kvRead_cases (world.db.get (encodeMetaKey key))
  rw [read] at cases
  rw [SetInstantKept, read]
  by_cases failed : found < 0
  · rw [eval_set_error world key val positive read failed] at run
    obtain ⟨⟨rfl, rfl⟩, rfl⟩ : (found = ret ∧ 0 = added) ∧ world = after := by simpa using run
    exact iff_of_true (Or.inl ⟨replies.error _ _ failed, rfl⟩) (Or.inl failed)
  have known : found = 0 ∨ found = 1 := cases.resolve_left failed
  by_cases refused : (found = 0 ∧ flags.xx) ∨ (found = 1 ∧ flags.nx)
  · obtain ⟨ret', nonneg, idle⟩ := eval_set_refused world key val expiring positive read refused
    rw [idle] at run
    obtain ⟨⟨rfl, rfl⟩, rfl⟩ : (ret' = ret ∧ 0 = added) ∧ world = after := by simpa using run
    have asked : flags.nx ∨ flags.xx := refused.elim (fun xx => Or.inr xx.2) fun nx => Or.inl nx.2
    refine iff_of_true (Or.inl ⟨replies.refusal _ nonneg asked, rfl⟩) (Or.inr ?_)
    rcases refused with xx | nx
    · exact Or.inl xx
    · exact Or.inr (Or.inl nx)
  obtain ⟨absent, present⟩ := not_or.mp refused
  rw [eval_set_performed world key val expiring positive read known absent present] at run
  obtain ⟨after', run', outcome⟩ := setExpiry_cases world key val kv.version ttl readable
  rw [run'] at run
  obtain ⟨⟨rfl, rfl⟩, rfl⟩ : (1 = ret ∧ 1 = added) ∧ after' = after := by simpa using run
  rw [shifted] at outcome
  simp only [failed, absent, present, false_or]
  rcases outcome with ⟨future, live, stored⟩ | ⟨past, existed, gone⟩ | ⟨past, idle, live, kept⟩
  · have notPast : ¬Int64.ofInt instant ≤ world.clock 1 := Int64.not_le.mpr future
    simp only [ExpiryMeets, ExpiresAt, replies.success, live, stored, future, notPast, false_and,
      true_and, false_or, or_false, not_true_eq_false, and_false, Option.some_inj]
    exact ⟨fun ⟨ts, same, eq⟩ => same ▸ eq, fun eq => ⟨_, rfl, eq⟩⟩
  · have notFuture : ¬world.clock 1 < Int64.ofInt instant := Int64.not_lt.mpr past
    obtain rfl : found = 1 := by
      refine known.resolve_left ?_
      rintro rfl
      exact not_metaLive_of_kvRead read existed
    simp only [ExpiryMeets, ExpiresAt, replies.success, gone, past, notFuture, false_and, true_and,
      false_or, or_false, not_false_eq_true, and_true, one_ne_zero]
  · have notFuture : ¬world.clock 1 < Int64.ofInt instant := Int64.not_lt.mpr past
    obtain rfl : found = 0 := by
      refine known.resolve_right ?_
      rintro rfl
      exact idle (metaLive_of_kvRead read)
    simp only [ExpiryMeets, ExpiresAt, replies.success, live, kept, past, notFuture, false_and,
      true_and, false_or, or_false, not_true_eq_false, and_false, zero_ne_one]

theorem convert2ms_positive {unit : TimeUnit} {amount ttl : Int64} (positive : 0 < amount)
    (converted : convert2ms amount unit = .ok ttl) : 0 < ttl := by
  cases unit with
  | second =>
      rw [convert2ms] at converted
      split_ifs at converted with large
      obtain rfl := Except.ok.inj converted
      rw [Int64.not_le, Int64.lt_iff_toInt_lt] at large
      rw [Int64.lt_iff_toInt_lt] at positive ⊢
      have bound : (int64Max / 1000).toInt = 9223372036854775 := by decide
      have zero : (0 : Int64).toInt = 0 := rfl
      have thousand : (1000 : Int64).toInt = 1000 := by decide
      rw [bound] at large
      rw [zero] at positive
      rw [Int64.toInt_mul, thousand, Int.bmod_eq_of_le (by omega) (by omega)]
      omega
  | millisecond =>
      rw [convert2ms] at converted
      split_ifs at converted
      obtain rfl := Except.ok.inj converted
      exact positive

/-- SETEX and PSETEX do what they are for unless their instant is lost. -/
theorem setExpiring_meets_iff (world : World) (key argument val : Bytes) (unit : TimeUnit)
    {flags : SetFlags} (expiring : flags.ex ∨ flags.px) (always : ¬(flags.nx ∨ flags.xx))
    (readable : MetaReadable world.db key) :
    let amount := (int64Argument argument).getD 0
    let instant := (world.clock 0).toInt + unit.milliseconds * amount.toInt
    ExpiryMeets key instant (world.clock 1) world
        ((setExpiring unit flags key argument val).eval atomically world) ↔
      amount ≤ 0 ∨ (∃ code, convert2ms amount unit = .error code) ∨
        SetInstantKept world.db key flags instant (world.clock 1) := by
  intro amount instant
  rw [setExpiring]
  cases parsed : int64Argument argument with
  | none =>
      have zero : amount = 0 := by simp only [amount, parsed, Option.getD_none]
      exact iff_of_true (expiryMeets_of_refused trivial rfl) (Or.inl (zero ▸ Int64.le_refl 0))
  | some given =>
      have same : amount = given := by simp only [amount, parsed, Option.getD_some]
      rw [same]
      by_cases positive : given ≤ 0
      · simp only [if_pos positive]
        exact iff_of_true (expiryMeets_of_refused trivial rfl) (Or.inl positive)
      simp only [if_neg positive]
      cases converted : convert2ms given unit with
      | error code =>
          exact iff_of_true (expiryMeets_of_refused trivial rfl) (Or.inr (Or.inl ⟨code, rfl⟩))
      | ok ttl =>
          have above := convert2ms_positive (Int64.not_le.mp positive) converted
          have shifted : ttl + world.clock 0 = Int64.ofInt instant := by
            rw [Int64.add_comm, convert2ms_instant converted]
            simp only [instant, same]
          obtain ⟨ret, added, after, run⟩ : ∃ ret added after,
              (Kv.set key val flags ttl).eval atomically world = ((ret, added), after) :=
            ⟨_, _, _, rfl⟩
          have replies : SetReplies flags fun ret _ => if ret < 0 then .error ret else .ok :=
            { error := fun ret _ negative => by simp only [if_pos negative, Reply.Refuses]
              refusal := fun _ _ asked => absurd asked always
              success := id }
          have met := set_meets_iff world key val expiring above replies readable shifted run
          have accepted : ¬∃ code, (Except.ok ttl : Except Int Int64) = .error code := by
            rintro ⟨code, eq⟩
            cases eq
          simp only [Program.eval_bind, run, positive, accepted, false_or]
          rw [← met]
          split_ifs <;> exact Iff.rfl

/-- An expiry among the options of a SET is positive. -/
theorem setOptions_positive {words : List Bytes} {options result : SetOptions}
    (read : setOptions words options = .ok result)
    (before : options.flags.ex ∨ options.flags.px → 0 < options.ttl) :
    result.flags.ex ∨ result.flags.px → 0 < result.ttl := by
  fun_induction setOptions words options with
  | case1 options =>
      obtain rfl := Except.ok.inj read
      exact before
  | case2 => rename_i ih; exact ih read before
  | case3 => rename_i ih; exact ih read before
  | case4 => cases read
  | case5 => cases read
  | case6 => cases read
  | case7 =>
      rename_i positive _ ih
      exact ih read fun _ => Int64.not_le.mp positive
  | case8 =>
      rename_i positive _ ih
      exact ih read fun _ => Int64.not_le.mp positive
  | case9 => cases read

/-- SET with EX or PX does what it is for unless its instant is lost. -/
theorem procSet_meets_iff (world : World) (key val : Bytes) {words : List Bytes}
    {options : SetOptions} (read : setOptions words {} = .ok options)
    (expiring : options.flags.ex ∨ options.flags.px) (readable : MetaReadable world.db key) :
    let instant := (world.clock 0).toInt + options.unit.milliseconds * options.ttl.toInt
    ExpiryMeets key instant (world.clock 1) world
        ((procSet key val words).eval atomically world) ↔
      (∃ code, convert2ms options.ttl options.unit = .error code) ∨
        SetInstantKept world.db key options.flags instant (world.clock 1) := by
  intro instant
  have positive := setOptions_positive read (by decide) expiring
  simp only [procSet, read, setWithOptions]
  cases converted : convert2ms options.ttl options.unit with
  | error code => exact iff_of_true (expiryMeets_of_refused trivial rfl) (Or.inl ⟨code, rfl⟩)
  | ok ttl =>
      have above := convert2ms_positive positive converted
      have shifted : ttl + world.clock 0 = Int64.ofInt instant := by
        rw [Int64.add_comm, convert2ms_instant converted]
      obtain ⟨ret, added, after, run⟩ : ∃ ret added after,
          (Kv.set key val options.flags ttl).eval atomically world = ((ret, added), after) :=
        ⟨_, _, _, rfl⟩
      have replies : SetReplies options.flags fun ret added =>
          if ret < 0 then .error ret
          else if (options.flags.nx ∨ options.flags.xx) ∧ added = 0 then .nil else .ok :=
        { error := fun ret _ negative => by simp only [if_pos negative, Reply.Refuses]
          refusal := fun ret nonneg asked => by
            have refused : (options.flags.nx ∨ options.flags.xx) ∧ (0 : Int) = 0 := ⟨asked, rfl⟩
            rw [if_neg (not_lt.mpr nonneg), if_pos refused]
            trivial
          success := by simp [Reply.Refuses, Reply.ok] }
      have met := set_meets_iff world key val expiring above replies readable shifted run
      have accepted : ¬∃ code, (Except.ok ttl : Except Int Int64) = .error code := by
        rintro ⟨code, eq⟩
        cases eq
      simp only [Program.eval_bind, run, accepted, false_or]
      rw [← met]
      split_ifs <;> exact Iff.rfl

end Vcdb
