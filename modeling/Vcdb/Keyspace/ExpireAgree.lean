import Vcdb.Keyspace.ExpireTime

/-!
# Four ways to name one instant

EXPIRE, PEXPIRE, EXPIREAT and PEXPIREAT reach `expireAt` with the same time, but only EXPIRE turns
its result into a reply.
-/

namespace Vcdb

/-- No metadata is stored under the key, or metadata that is marked deleted. -/
def MetaIdle (db : DB) (key : Bytes) : Prop :=
  ∀ metaVal, db.get (encodeMetaKey key) = some metaVal → metaVal[posDel]? = some keyDeleteMask

theorem MetaIdle.not_live {db : DB} {key : Bytes} (idle : MetaIdle db key) : ¬MetaLive db key := by
  rintro ⟨metaVal, found, enabled⟩
  have deleted := idle metaVal found
  rw [enabled, Option.some_inj] at deleted
  exact enabled_ne_delete deleted

/-- What `checkMetaKey` tells about a key. -/
def metaKeyStatus (db : DB) (key : Bytes) : Int :=
  match db.get (encodeMetaKey key) with
  | none => 0
  | some metaVal =>
      match metaVal[posDel]? with
      | none => -1
      | some del => if del = keyDeleteMask then 0 else 1

theorem metaKeyStatus_eq_zero_iff (db : DB) (key : Bytes) :
    metaKeyStatus db key = 0 ↔ MetaIdle db key := by
  rw [metaKeyStatus, MetaIdle]
  cases db.get (encodeMetaKey key) with
  | none => simp
  | some metaVal =>
      simp only [Option.some.injEq, forall_eq']
      cases metaVal[posDel]? with
      | none => simp
      | some del => simp

theorem metaKeyStatus_cases (db : DB) (key : Bytes) :
    metaKeyStatus db key = -1 ∨ metaKeyStatus db key = 0 ∨ metaKeyStatus db key = 1 := by
  rw [metaKeyStatus]
  cases db.get (encodeMetaKey key) with
  | none => exact Or.inr (Or.inl rfl)
  | some metaVal =>
      simp only
      cases metaVal[posDel]? with
      | none => exact Or.inl rfl
      | some del => exact Or.inr (ite_eq_or_eq _ _ _)

theorem eval_checkMetaKey (world : World) (key : Bytes) :
    (checkMetaKey key).eval atomically world = (metaKeyStatus world.db key, world) := by
  have read : (dbGet (encodeMetaKey key)).eval atomically world =
      (ReadStatus.ofOption (world.db.get (encodeMetaKey key)), world) := rfl
  rw [checkMetaKey, Program.eval_bind, read, metaKeyStatus]
  cases world.db.get (encodeMetaKey key) with
  | none => rfl
  | some metaVal =>
      simp only [ReadStatus.ofOption]
      cases metaVal[posDel]? with
      | none => rfl
      | some del => rfl

/-- The result of `expireAt`, whatever is stored. -/
def expireAtStatus (db : DB) (now : Int64) (key : Bytes) (ts : Int64) : Int :=
  if ts ≤ now then 2 else if metaKeyStatus db key = 1 then 2 else metaKeyStatus db key

theorem expireAtStatus_eq_zero_iff {db : DB} {now ts : Int64} {key : Bytes} :
    expireAtStatus db now key ts = 0 ↔ now < ts ∧ MetaIdle db key := by
  rw [expireAtStatus, ← metaKeyStatus_eq_zero_iff, ← Int64.not_le]
  split_ifs with past live
  · simp [past]
  · simp [live]
  · simp [past]

theorem expireAtStatus_ne_one (db : DB) (now ts : Int64) (key : Bytes) :
    expireAtStatus db now key ts ≠ 1 := by
  rw [expireAtStatus]
  split_ifs with past live
  · decide
  · decide
  · exact live

/-- The result of `expireAt`; nothing is written when it is zero. -/
theorem eval_expireAt (world : World) (key : Bytes) (ts : Int64) :
    ∃ batch after, (expireAt key ts []).eval atomically world =
        ((expireAtStatus world.db (world.clock 0) key ts, batch), after) ∧
      (expireAtStatus world.db (world.clock 0) key ts = 0 → after.db = world.db) := by
  rw [expireAt, if_pos rfl, eval_recordKeyLock, expireAtInternal, Program.eval_bind, eval_timeMs,
    expireAtStatus]
  by_cases past : ts ≤ world.clock 0
  · simp only [if_pos past, Program.eval_bind]
    obtain ⟨⟨ret, batch⟩, after⟩ := (delKeyInternal key []).eval atomically world.tick
    by_cases found : 0 ≤ ret
    · refine ⟨batch, after.withDB (batch.apply after.db), ?_, fun zero => absurd zero (by decide)⟩
      simp [found]
    · refine ⟨batch, after, ?_, fun zero => absurd zero (by decide)⟩
      simp [found]
  · simp only [if_neg past, if_true, Program.eval_bind, eval_checkMetaKey, World.db_tick]
    rcases metaKeyStatus_cases world.db key with unreadable | idle | live
    · rw [unreadable]
      exact ⟨[], world.tick, rfl, fun _ => rfl⟩
    · rw [idle]
      exact ⟨[], world.tick, rfl, fun _ => rfl⟩
    · have positive : ¬(1 : Int) ≤ 0 := by decide
      refine ⟨expiryBatch world.db key ts,
        World.withDB { world.tick with expiration := world.expiration.insertFastKey key ts }
          ((expiryBatch world.db key ts).apply world.db), ?_, ?_⟩
      · simp only [live, if_neg positive, Program.eval_bind, eval_esetOne]
        rfl
      · rw [live]
        exact fun zero => absurd zero (by decide)

/-! ### The commands -/

/-- One instant named by its distance from now and from the epoch, in seconds and in
milliseconds. -/
structure SameInstant (now seconds millis epochSeconds epochMillis : Int64) : Prop where
  relative : epochMillis.toInt = now.toInt + millis.toInt
  wholeFromNow : millis.toInt = 1000 * seconds.toInt
  wholeFromEpoch : epochMillis.toInt = 1000 * epochSeconds.toInt

/-- A reply that tells whether a key existed. -/
def TellsExistence (db : DB) (key : Bytes) (reply : Reply) : Prop :=
  (MetaLive db key ∧ reply = .int 1) ∨ (¬MetaLive db key ∧ reply = .int 0)

/-- The commands leave one store and all tell whether the key existed before. -/
def ExpireCommandsAgree (world : World) (key : Bytes) (commands : List (Command Reply)) : Prop :=
  ∃ after : DB, ∀ command ∈ commands,
    TellsExistence world.db key (command.eval atomically world).1 ∧
      (command.eval atomically world).2.db = after

namespace SameInstant

variable {now seconds millis epochSeconds epochMillis : Int64}
  (same : SameInstant now seconds millis epochSeconds epochMillis)

include same

theorem epochSeconds_mul : epochSeconds * 1000 = epochMillis := by
  have scaled : epochSeconds * 1000 = Int64.ofInt (1000 * epochSeconds.toInt) := by
    rw [Int64.ofInt_mul, Int64.ofInt_toInt, Int64.mul_comm]
    rfl
  rw [scaled, ← same.wholeFromEpoch, Int64.ofInt_toInt]

theorem now_add_seconds : now + seconds * 1000 = epochMillis := by
  rw [← ofInt_instant, ← same.wholeFromNow, ← same.relative, Int64.ofInt_toInt]

theorem now_add_millis : now + millis = epochMillis := by
  rw [← Int64.ofInt_toInt epochMillis, same.relative, Int64.ofInt_add, Int64.ofInt_toInt,
    Int64.ofInt_toInt]

/-- A number of whole seconds is never the largest time. -/
theorem millis_lt_max : ¬int64Max ≤ millis := by
  intro large
  have whole := same.wholeFromNow
  have upper := Int64.toInt_lt millis
  have lower := Int64.le_iff_toInt_le.mp large
  have largest : int64Max.toInt = 2 ^ 63 - 1 := rfl
  rw [largest] at lower
  omega

end SameInstant

/-- Replies for a result that is an error when it is negative. -/
def statusReply (reply : Int → Reply) (ret : Int) : Reply := if ret < 0 then .error ret else reply ret

section Commands

variable {world : World} {key : Bytes}

theorem eval_expireAtInstant (world : World) (key : Bytes) (ts : Int64) :
    ∃ after, (expireAtInstant key ts).eval atomically world =
        (statusReply .int (expireAtStatus world.db (world.clock 0) key ts), after) ∧
      (expireAtStatus world.db (world.clock 0) key ts = 0 → after.db = world.db) := by
  obtain ⟨batch, after, run, idle⟩ := eval_expireAt world key ts
  refine ⟨after, ?_, idle⟩
  rw [expireAtInstant, Program.eval_bind, run, statusReply]
  simp only
  split_ifs
  · rfl
  · rfl

theorem eval_expireIn {unit : TimeUnit} {argument : Bytes} {amount ttl : Int64}
    (parsed : string2ll argument = some amount) (converted : convert2ms amount unit = .ok ttl)
    (reply : Int → Reply) (still : world.clock 1 = world.clock 0) :
    ∃ after, (expireIn unit reply key argument).eval atomically world =
        (statusReply reply (expireAtStatus world.db (world.clock 0) key (world.clock 0 + ttl)),
          after) ∧
      (expireAtStatus world.db (world.clock 0) key (world.clock 0 + ttl) = 0 →
        after.db = world.db) := by
  obtain ⟨batch, after, run, idle⟩ := eval_expireAt world.tick key (world.clock 0 + ttl)
  rw [show world.tick.clock 0 = world.clock 0 from still] at run idle
  refine ⟨after, ?_, idle⟩
  rw [expireIn, parsed]
  simp only [Program.eval_bind, expire, converted, eval_timeMs, run, statusReply, World.db_tick,
    Program.pure_eq_done, Program.eval_done]
  split_ifs
  · rfl
  · rfl

theorem tellsExistence_statusReply_iff {now ts : Int64} :
    TellsExistence world.db key (statusReply .int (expireAtStatus world.db now key ts)) ↔
      now < ts ∧ MetaIdle world.db key := by
  rw [← expireAtStatus_eq_zero_iff, TellsExistence, statusReply]
  constructor
  · rintro (⟨_, one⟩ | ⟨_, zero⟩)
    · split_ifs at one
      exact absurd (Reply.int.inj one) (expireAtStatus_ne_one _ _ _ _)
    · split_ifs at zero
      exact Reply.int.inj zero
  · intro zero
    have idle := (expireAtStatus_eq_zero_iff.mp zero).2
    rw [zero]
    exact Or.inr ⟨idle.not_live, rfl⟩

/-- The commands agree exactly on instants to come of keys that do not exist; for any other EXPIRE
replies `1` and the rest `2`. -/
theorem expireCommands_agree_iff {seconds millis epochSeconds epochMillis : Int64}
    (same : SameInstant (world.clock 0) seconds millis epochSeconds epochMillis)
    (still : world.clock 1 = world.clock 0) {inSeconds inMillis atSecond atMilli : Bytes}
    (readSeconds : string2ll inSeconds = some seconds)
    (readMillis : string2ll inMillis = some millis)
    (readSecond : string2ll atSecond = some epochSeconds)
    (readMilli : string2ll atMilli = some epochMillis) :
    ExpireCommandsAgree world key [procExpire key inSeconds, procPexpire key inMillis,
        procExpireat key atSecond, procPexpireat key atMilli] ↔
      world.clock 0 < epochMillis ∧ MetaIdle world.db key ∧ seconds < int64Max / 1000 := by
  obtain ⟨instantAfter, instant, instantKept⟩ := eval_expireAtInstant world key epochMillis
  have milli : (procPexpireat key atMilli).eval atomically world = (statusReply .int
      (expireAtStatus world.db (world.clock 0) key epochMillis), instantAfter) := by
    rw [procPexpireat, readMilli]
    exact instant
  have second : (procExpireat key atSecond).eval atomically world = (statusReply .int
      (expireAtStatus world.db (world.clock 0) key epochMillis), instantAfter) := by
    rw [procExpireat, readSecond]
    simp only [same.epochSeconds_mul, instant]
  have converted : convert2ms millis .millisecond = .ok millis := if_neg same.millis_lt_max
  obtain ⟨millisAfter, inMilli, millisKept⟩ := eval_expireIn readMillis converted Reply.int still
  rw [same.now_add_millis] at inMilli millisKept
  constructor
  · rintro ⟨after, agree⟩
    have told := (agree (procPexpireat key atMilli) (by simp)).1
    rw [milli] at told
    obtain ⟨future, idle⟩ := tellsExistence_statusReply_iff.mp told
    refine ⟨future, idle, Int64.not_le.mp fun large => ?_⟩
    have refused : (procExpire key inSeconds).eval atomically world =
        (.error invalidExTime, world) := by
      rw [procExpire, expireIn, readSeconds]
      simp only [expire, convert2ms, if_pos large]
      rfl
    have told := (agree (procExpire key inSeconds) (by simp)).1
    rw [refused] at told
    rcases told with ⟨_, reply⟩ | ⟨_, reply⟩
    · cases reply
    · cases reply
  · rintro ⟨future, idle, small⟩
    have zero := expireAtStatus_eq_zero_iff.mpr ⟨future, idle⟩
    have told : TellsExistence world.db key (.int 0) := Or.inr ⟨idle.not_live, rfl⟩
    have converted : convert2ms seconds .second = .ok (seconds * 1000) :=
      if_neg (Int64.not_le.mpr small)
    obtain ⟨secondsAfter, inSecond, secondsKept⟩ := eval_expireIn readSeconds converted
      (fun ret => .int (if ret = 0 then 0 else 1)) still
    rw [same.now_add_seconds] at inSecond secondsKept
    rw [zero] at inSecond inMilli second milli
    refine ⟨world.db, fun command listed => ?_⟩
    simp only [List.mem_cons, List.not_mem_nil, or_false] at listed
    rcases listed with rfl | rfl | rfl | rfl
    · rw [procExpire, inSecond]
      exact ⟨told, secondsKept zero⟩
    · rw [procPexpire, inMilli]
      exact ⟨told, millisKept zero⟩
    · rw [second]
      exact ⟨told, instantKept zero⟩
    · rw [milli]
      exact ⟨told, instantKept zero⟩

end Commands

section Samples

/-- `1` and `1000` seconds and milliseconds after the epoch, which is now. -/
theorem sameInstant_second : SameInstant 0 1 1000 1 1000 := ⟨rfl, rfl, rfl⟩

/-- A key that does not exist gets no expiry, and all four commands say so. -/
theorem expireCommands_agree_idle :
    ExpireCommandsAgree (stringWorld [107] [97]) [98] [procExpire [98] [49],
      procPexpire [98] [49, 48, 48, 48], procExpireat [98] [49],
      procPexpireat [98] [49, 48, 48, 48]] := by
  have absent : (stringWorld [107] [97]).db.get (encodeMetaKey [98]) = none := by decide +kernel
  have idle : MetaIdle (stringWorld [107] [97]).db [98] := by
    intro metaVal found
    rw [absent] at found
    cases found
  exact (@expireCommands_agree_iff (stringWorld [107] [97]) [98] 1 1000 1 1000 sameInstant_second
    rfl [49] [49, 48, 48, 48] [49] [49, 48, 48, 48] rfl rfl rfl rfl).mpr
      ⟨by decide, idle, by decide⟩

/-- `PEXPIRE k 1000` on an existing key replies `2`. -/
theorem expireCommands_disagree :
    ¬ExpireCommandsAgree (stringWorld [107] [97]) [107] [procExpire [107] [49],
      procPexpire [107] [49, 48, 48, 48], procExpireat [107] [49],
      procPexpireat [107] [49, 48, 48, 48]] := by
  rintro ⟨after, agree⟩
  have told := (agree (procPexpire [107] [49, 48, 48, 48]) (by simp)).1
  have replied : ((procPexpire [107] [49, 48, 48, 48]).eval atomically
      (stringWorld [107] [97])).1 = .int 2 := by decide +kernel
  rw [replied] at told
  rcases told with ⟨_, reply⟩ | ⟨_, reply⟩
  · cases reply
  · cases reply

end Samples

end Vcdb
