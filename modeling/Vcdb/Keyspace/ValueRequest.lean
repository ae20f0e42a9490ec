import Vcdb.Keyspace.ValueCommand
import Vcdb.Proc.Request

/-!
# Requests that work on a value

Every command of the collections, and every command that changes a string in place, keeps to the
discipline of its key and reports a key of another type.
-/

namespace Vcdb

section Replies

/-- A negative result is an error. -/
theorem ensures_error {ret : Int} {reply : Command Reply}
    (pure : reply.Ensures (fun _ => False) fun _ => True) :
    (if ret < 0 then return .error ret else reply : Command Reply).Ensures (fun _ => False)
      fun result => ret < 0 → result.IsError := by
  split_ifs with failed
  · exact fun _ => trivial
  · exact pure.mono fun _ _ negative => absurd negative failed

/-- A refusal is reported. -/
theorem answers_refused {α : Type} {next : Except Int α → Command Reply}
    (error : ∀ code, next (.error code) = return .error code)
    (reply : ∀ value, (next (.ok value)).Ensures (fun _ => False) fun _ => True)
    (result : Except Int α) :
    (next result).Ensures (fun _ => False) fun answer => Refused result → answer.IsError := by
  cases result with
  | error code =>
      rw [error]
      exact fun _ => trivial
  | ok value => exact (reply value).mono fun _ _ refused => refused.elim

end Replies

/-! ### Strings -/

theorem incrInteger_error {by' : Int64} {old : Bytes} {ret code : Int}
    (fails : incrInteger by' old ret = .error code) : code < 0 := by
  rw [incrInteger] at fails
  split_ifs at fails
  split at fails
  · cases fails
    decide
  · split_ifs at fails
    cases fails
    decide

theorem incrFloat_error {float : LongDoubleUnit} {lower upper by' : float.LongDouble}
    {old : Bytes} {ret code : Int}
    (fails : incrFloat float lower upper by' old ret = .error code) : code < 0 := by
  rw [incrFloat] at fails
  by_cases missing : ret = 0
  · rw [if_pos missing] at fails
    cases fails
  · rw [if_neg missing] at fails
    cases read : float.bytesLongDouble old with
    | none =>
        rw [read] at fails
        cases fails
        decide
    | some oldvalue =>
        rw [read] at fails
        simp only at fails
        split_ifs at fails
        · cases fails
          decide
        · cases fails
          decide

theorem map_error {ν μ : Type} {result : Except Int ν} {f : ν → μ} {code : Int}
    (fails : result.map f = .error code) : result = .error code := by
  cases result with
  | error found => exact congrArg _ (Except.error.inj fails)
  | ok value => cases fails

theorem StringCommand.writesValue (float : LongDoubleUnit) (command : StringCommand) :
    WritesValue none command.key true DataType.kv Reply.IsError (command.run float) := by
  cases command with
  | append key value =>
      refine (writesValue_updateKvCommon key _ fun kv ret code fails => ?_).map
          (answers_refused (fun _ => rfl) fun _ => trivial)
      cases fails
  | incr key by' | decr key by' =>
      simp only [run, procIncr, procDecr, incrBy]
      cases by'.elim (some 1) int64Argument with
      | none => exact writesValue_done trivial
      | some by' =>
          exact (writesValue_updateKvCommon key _ fun kv ret code fails =>
            incrInteger_error (map_error fails)).map (answers_refused (fun _ => rfl) fun _ => trivial)
  | incrbyfloat key by' =>
      simp only [run, procIncrbyfloat]
      cases float.bytesLongDouble by' with
      | none => exact writesValue_done trivial
      | some by' =>
          exact (writesValue_updateKvCommon key _ fun kv ret code fails =>
            incrFloat_error (map_error fails)).map (answers_refused (fun _ => rfl) fun _ => trivial)
  | setbit key offset bit =>
      simp only [run, procSetbit]
      split_ifs
      · exact writesValue_done trivial
      · exact writesValue_done trivial
      · refine (writesValue_updateKvCommon key _ fun kv ret code fails => ?_).map
          (answers_refused (fun _ => rfl) fun _ => trivial)
        cases fails
  | setrange key start value =>
      simp only [run, procSetrange]
      cases int64Argument start with
      | none => exact writesValue_done trivial
      | some first =>
          simp only
          split_ifs
          · exact writesValue_done trivial
          · exact (writesValue_setrange key first value).map (answers_refused (fun _ => rfl) fun _ => trivial)

/-! ### Hashes -/

section Hashes

variable {name : Bytes}

theorem looksUp_hmgetLoop (hv : MetaVal) (reqKeys : List Bytes) (resMap : SortedMap Bytes Bytes) :
    LooksUp name false (fun _ => False) (fun _ => True) (hmgetLoop hv name reqKeys resMap) := by
  induction reqKeys generalizing resMap with
  | nil => exact looksUp_done trivial
  | cons reqKey reqKeys ih =>
      refine (looksUp_getHashItemValInternal name reqKey hv.version).bind (fun result _ => ?_) ?_
      · simp only
        split_ifs
        · exact ih _
        · exact ih _
        · exact looksUp_done trivial
      · rintro _ ⟨careless, _⟩
        cases careless

/-- What is read of a live key only. -/
theorem ensures_live {α : Type} {ret : Int} {other value : α} {code : α → Int}
    (failed : code other = ret) :
    (if ret ≠ 1 then return other else return value : Command α).Ensures (fun _ => False)
      fun result => ret < 0 → code result < 0 := by
  by_cases live : ret ≠ 1
  · rw [if_pos live]
    exact fun negative => failed.trans_lt negative
  · rw [if_neg live]
    rw [not_not] at live
    exact fun negative => absurd (live ▸ negative) (by decide)

theorem readsValue_hgetall (saveKey saveValue : Bool) :
    ReadsValue name false DataType.hsize (·.1 < 0) (hgetall name saveKey saveValue) := by
  refine @ReadsValue.map _ _ _ _ _ (fun result : Int × MetaVal × DB => result.1 < 0) _ _ _
    (readsValue_lock (follows_getMetaVal (fun metaVal ret hv read => read.looked ?_) fun hv => ?_))
    fun result => ensures_live rfl
  · simp only
    split_ifs
    · exact (looksUp_getSnapshot fun _ => False).bind (fun db _ => looksUp_done id)
        fun db failed => failed.elim
    · exact looksUp_done id
  · exact (by decide : storageErr < 0)

theorem readsValue_hmget (reqKeys : List Bytes) :
    ReadsValue name false DataType.hsize (·.1 < 0) (hmget name reqKeys) := by
  refine @ReadsValue.bind _ _ _ _ _ (fun result : Int × MetaVal => result.1 < 0) _ _ _
    (readsValue_lock (follows_getMetaVal (fun metaVal ret hv read => read.looked ?_) fun hv => ?_))
    (fun result => ?_) fun result failed => ?_
  · simp only
    split_ifs
    · exact (looksUp_getSnapshot fun _ => False).bind (fun db _ => looksUp_done id)
        fun db failed => failed.elim
    · exact looksUp_done id
  · exact (by decide : storageErr < 0)
  · simp only
    by_cases live : result.1 ≠ 1
    · rw [if_pos live]
      exact looksUp_done id
    · rw [if_neg live]
      rw [not_not] at live
      have success : ¬result.1 < 0 := by omega
      refine (looksUp_hmgetLoop result.2 reqKeys ∅).bind (fun outcome _ => ?_)
        fun outcome failed => failed.elim
      cases outcome with
      | error code => exact looksUp_done fun failed => absurd failed success
      | ok resMap => exact looksUp_done fun failed => absurd failed success
  · have idle : result.1 ≠ 1 := by omega
    simp only [if_pos idle]
    exact failed

theorem readsValue_hget (field : Bytes) :
    ReadsValue name false DataType.hsize (·.1 < 0) (hget name field) := by
  refine follows_getMetaVal (fun metaVal ret hv read => read.looked ?_) fun hv => ?_
  · simp only
    by_cases live : ret ≠ 1
    · rw [if_pos live]
      exact looksUp_done id
    · rw [if_neg live]
      rw [not_not] at live
      refine (looksUp_getHashItemValInternal name field hv.version).bind
        (fun result _ => looksUp_done fun failed => absurd failed (by omega)) ?_
      rintro _ ⟨careless, _⟩
      cases careless
  · exact (by decide : storageErr < 0)

theorem readsValue_hsize : ReadsValue name false DataType.hsize (·.1 < 0) (hsize name) := by
  refine follows_getMetaVal (fun metaVal ret hv read => read.looked ?_) fun hv => ?_
  · simp only
    by_cases live : ret ≠ 1
    · rw [if_pos live]
      exact looksUp_done id
    · rw [if_neg live]
      rw [not_not] at live
      exact looksUp_done fun failed => absurd failed (by omega)
  · exact (by decide : storageErr < 0)

end Hashes

/-- Only HSETNX looks at a failing read of its field. -/
def HashCommand.careful : HashCommand → Bool
  | .hset _ _ _ | .hget _ _ | .hmget _ _ | .hgetall _ | .hkeys _ | .hvals _ | .hexists _ _
  | .hlen _ => false
  | .hsetnx _ _ _ | .hmset _ _ | .hdel _ _ | .hincrby _ _ _ => true

theorem HashCommand.writesValue (command : HashCommand) :
    WritesValue none command.key command.careful DataType.hsize Reply.IsError command.run := by
  cases command with
  | hset key field val | hsetnx key field val =>
      refine (writesValue_hsetCommon key field val _).map fun result => ensures_error ?_
      split_ifs <;> trivial
  | hmset key kvs =>
      simp only [run, procHmset]
      split_ifs
      · exact writesValue_done trivial
      · exact (writesValue_hmset key (fieldMap kvs)).map fun result => ensures_error trivial
  | hdel key fields =>
      simp only [run, procHdel]
      split_ifs
      · exact writesValue_done trivial
      · exact (writesValue_hdel key (byteSet fields)).map fun result => ensures_error trivial
  | hincrby key field by' =>
      exact (writesValue_hincrCommon key field _ _ fun old ret code => incrInteger_error).map
        (answers_refused (fun _ => rfl) fun _ => trivial)
  | hget key field =>
      refine ((readsValue_hget field).map fun result => ensures_error ?_).writesValue
      cases result.2 <;> trivial
  | hmget key fields =>
      simp only [run, procHmget]
      split_ifs
      · exact writesValue_done trivial
      · refine ((readsValue_hmget fields).map fun result => ensures_error ?_).writesValue
        trivial
  | hgetall key | hkeys key | hvals key =>
      refine ((readsValue_hgetall _ _).map fun result => ensures_error ?_).writesValue
      split_ifs <;> trivial
  | hexists key field =>
      refine ((readsValue_hget field).map fun result => ensures_error ?_).writesValue
      split_ifs <;> trivial
  | hlen key =>
      refine (readsValue_hsize.map fun result => ensures_error ?_).writesValue
      trivial

theorem writesValue_procHincrbyfloat (float : LongDoubleUnit) (dblMax : float.LongDouble)
    (name field argument : Bytes) :
    WritesValue none name true DataType.hsize Reply.IsError
      (procHincrbyfloat float dblMax name field argument) := by
  rw [procHincrbyfloat]
  cases float.bytesLongDouble argument with
  | none => exact writesValue_done trivial
  | some by' =>
      exact (writesValue_hincrCommon name field _ _ fun old ret code => incrFloat_error).map
        (answers_refused (fun _ => rfl) fun _ => trivial)

/-! ### Sets -/

section Sets

variable {key : Bytes}

theorem readsValue_scard : ReadsValue key true DataType.ssize (·.1 < 0) (scard key) := by
  refine follows_getMetaVal (fun metaVal ret sv read => read.looked ?_) fun sv => ?_
  · simp only
    split_ifs
    · exact looksUp_done id
    · exact looksUp_done id
  · exact (by decide : storageErr < 0)

theorem readsValue_sismember (member : Bytes) :
    ReadsValue key true DataType.ssize (·.1 < 0) (sismember key member) := by
  refine follows_getMetaVal (fun metaVal ret sv read => read.looked ?_) fun sv => ?_
  · simp only
    by_cases failed : ret < 0
    · rw [if_pos failed]
      exact looksUp_done id
    · rw [if_neg failed]
      by_cases live : ret = 1
      · rw [if_pos live]
        refine (looksUp_getSetItemValInternal key member sv.version).bind (fun found _ => ?_)
          fun found negative => ?_
        · split_ifs
          · exact looksUp_done fun negative => absurd negative failed
          · exact looksUp_done fun negative => absurd negative failed
        · rw [if_pos negative]
          exact negative
      · rw [if_neg live]
        exact looksUp_done fun negative => absurd negative failed
  · exact (by decide : storageErr < 0)

theorem readsValue_smembers : ReadsValue key true DataType.ssize (·.1 < 0) (smembers key) := by
  refine @ReadsValue.map _ _ _ _ _ (fun result : Int × MetaVal × DB => result.1 < 0) _ _ _
    (readsValue_lock (follows_getMetaVal (fun metaVal ret sv read => read.looked ?_) fun sv => ?_))
    fun result => ensures_live rfl
  · simp only
    split_ifs
    · exact (looksUp_getSnapshot fun _ => False).bind (fun db _ => looksUp_done id)
        fun db failed => failed.elim
    · exact looksUp_done id
  · exact (by decide : storageErr < 0)

end Sets

theorem SetCommand.writesValue (command : SetCommand) :
    WritesValue none command.key true DataType.ssize Reply.IsError command.run := by
  cases command with
  | sadd key members =>
      simp only [run, procSadd]
      split_ifs
      · exact writesValue_done trivial
      · exact (writesValue_sadd key (byteSet members)).map fun result => ensures_error trivial
  | srem key members =>
      simp only [run, procSrem]
      split_ifs
      · exact writesValue_done trivial
      · exact (writesValue_srem key members).map fun result => ensures_error trivial
  | spop key count =>
      exact (writesValue_spop key (count.getD 1)).map fun result => ensures_error trivial
  | scard key =>
      refine (readsValue_scard.map fun result => ensures_error ?_).writesValue
      trivial
  | sismember key member =>
      refine ((readsValue_sismember member).map fun result => ensures_error ?_).writesValue
      split_ifs <;> trivial
  | smembers key =>
      refine (readsValue_smembers.map fun result => ensures_error ?_).writesValue
      trivial

/-! ### Lists -/

section Lists

variable {key : Bytes}

theorem readsValue_lIndex (index : Int64) :
    ReadsValue key true DataType.lsize (·.1 < 0) (lIndex key index) := by
  refine follows_getListMetaVal (fun metaVal ret lv read _ => read.looked ?_) fun lv => ?_
  · simp only
    by_cases live : ret = 1
    · rw [if_pos live]
      exact (looksUp_getListItemValInternal key _ lv.version).bind
        (fun result _ => looksUp_done fun failed => absurd failed (by omega)) fun result => id
    · rw [if_neg live]
      exact looksUp_done id
  · exact (by decide : storageErr < 0)

theorem readsValue_lLen : ReadsValue key true DataType.lsize (·.1 < 0) (lLen key) :=
  follows_getListMetaVal (fun _ _ _ read _ => read.looked (looksUp_done id)) fun _ =>
    (by decide : storageErr < 0)

theorem looksUp_rangeLoop (snapshot : DB) (version : UInt16) (count : Nat) (curSeq : UInt64)
    (list : List Bytes) :
    LooksUp key true Refused (fun _ => True) (rangeLoop snapshot key version count curSeq list) := by
  induction count generalizing curSeq list with
  | zero => exact looksUp_done trivial
  | succ count ih =>
      have looked : LooksUp key true (fun status => status = ReadStatus.error) (fun _ => True)
          (snapshotGet snapshot (encodeListKey key curSeq version)) := by
        intro watch _ _
        refine (Program.follows_call _ _).mpr ⟨trivial, fun answer => ?_⟩
        simp only [valueMonitor, Watch.after]
        split_ifs with failed
        · exact ⟨fun _ => failed, fun _ goes => (by cases goes)⟩
        · exact ⟨fun fails => (by cases fails), fun _ goes =>
            ⟨(Option.some_inj.mp goes).symm, trivial⟩⟩
      refine looked.bind (fun status _ => ?_) ?_
      · simp only
        split_ifs
        · exact looksUp_done trivial
        · exact ih _ _
      · rintro _ rfl
        exact (by decide : (-1 : Int) < 0)

theorem readsValue_lrange (start stop : Int64) :
    ReadsValue key true DataType.lsize (·.1 < 0) (lrange key start stop) := by
  refine @ReadsValue.bind _ _ _ _ _ (fun result : Int × ListMetaVal × DB => result.1 < 0) _ _ _
    (readsValue_lock (follows_getListMetaVal (fun metaVal ret lv read _ => read.looked ?_)
      fun lv => ?_)) (fun result => ?_) fun result failed => ?_
  · simp only
    split_ifs
    · exact (looksUp_getSnapshot fun _ => False).bind (fun db _ => looksUp_done id)
        fun db failed => failed.elim
    · exact looksUp_done id
  · exact (by decide : storageErr < 0)
  · simp only
    by_cases live : result.1 ≠ 1
    · rw [if_pos live]
      exact looksUp_done id
    · rw [if_neg live]
      rw [not_not] at live
      have success : ¬result.1 < 0 := by omega
      split_ifs
      · exact looksUp_done fun failed => absurd failed success
      all_goals
        refine (looksUp_rangeLoop _ _ _ _ _).bind (fun outcome _ => ?_) fun outcome failed => ?_
        · cases outcome with
          | error code => exact looksUp_done fun failed => absurd failed success
          | ok list => exact looksUp_done fun failed => absurd failed success
        · cases outcome with
          | error code => exact failed
          | ok list => exact failed.elim
  · have idle : result.1 ≠ 1 := by omega
    simp only [if_pos idle]
    exact failed

end Lists

theorem answers_replyValue (result : Int × Option Bytes) :
    (replyValue (return result)).Ensures (fun _ => False) fun reply =>
      result.1 < 0 → reply.IsError := by
  obtain ⟨ret, found⟩ := result
  cases found with
  | none => exact ensures_error trivial
  | some val => exact ensures_error trivial

theorem ListCommand.writesValue (command : ListCommand) :
    WritesValue none command.key true DataType.lsize Reply.IsError command.run := by
  cases command with
  | lpush key vals | rpush key vals | lpushx key vals | rpushx key vals =>
      simp only [run, procLpush, procRpush, procLpushx, procRpushx, procPush]
      split_ifs
      · exact writesValue_done trivial
      · exact (writesValue_listPush key vals _ _).map fun result => ensures_error trivial
  | lpop key | rpop key => exact (writesValue_listPop key _).map answers_replyValue
  | lset key index val =>
      refine (writesValue_lSet key index val).map fun ret => ensures_error ?_
      split_ifs <;> trivial
  | ltrim key start stop =>
      exact (writesValue_ltrim key start stop).map fun ret => ensures_error trivial
  | lindex key index => exact ((readsValue_lIndex index).map answers_replyValue).writesValue
  | lrange key start stop =>
      refine ((readsValue_lrange start stop).map fun result => ensures_error ?_).writesValue
      trivial
  | llen key =>
      refine (readsValue_lLen.map fun result => ensures_error ?_).writesValue
      trivial

/-! ### Sorted sets -/

section Zsets

variable {name : Bytes}

theorem readsValue_zsize : ReadsValue name true DataType.zsize (·.1 < 0) (zsize name) := by
  refine follows_getMetaVal (fun metaVal ret zv read => read.looked ?_) fun zv => ?_
  · simp only
    split_ifs with idle
    · exact looksUp_done id
    · exact looksUp_done fun failed => absurd failed.le idle
  · exact (by decide : storageErr < 0)

theorem readsValue_zget (member : Bytes) :
    ReadsValue name true DataType.zsize (·.1 < 0) (zget name member) := by
  refine follows_getMetaVal (fun metaVal ret zv read => read.looked ?_) fun zv => ?_
  · simp only
    by_cases live : ret ≠ 1
    · rw [if_pos live]
      exact looksUp_done id
    · rw [if_neg live]
      rw [not_not] at live
      exact fun watch kept fresh => (looksUp_getZsetItemVal name member zv.version watch kept
        fresh).mono (fun _ _ ends => ⟨ends.1, fun failed => absurd failed (by omega)⟩) fun _ => id
  · exact (by decide : storageErr < 0)

end Zsets

theorem writesValue_procZadd (float : FloatUnit) (name : Bytes) (flags : ZaddFlags)
    (elements : List (Bytes × Bytes)) :
    WritesValue none name true DataType.zsize Reply.IsError (procZadd float name flags elements) := by
  cases elements with
  | nil => exact writesValue_done trivial
  | cons element more =>
      simp only [procZadd]
      split_ifs
      · exact writesValue_done trivial
      · exact writesValue_done trivial
      · cases float.bytesDouble element.2 with
        | none => exact writesValue_done trivial
        | some score =>
            refine (writesValue_zincr float name element.1 score flags).map
              (answers_refused (fun _ => rfl) fun value => ?_)
            simp only
            split_ifs <;> trivial
      · exact (writesValue_multiZset float name _ flags).map fun result => ensures_error trivial

/-- Some removals by member are answered without a look at the key. -/
def ZsetCommand.Unread : ZsetCommand → Prop
  | .zremrangebylex _ min max => LexUnread min max
  | _ => False

theorem ZsetCommand.run_unread (float : FloatUnit) {command : ZsetCommand}
    (unread : command.Unread) : ∃ reply, command.run float = .done reply := by
  cases command with
  | zremrangebylex key min max =>
      obtain ⟨result, same⟩ := zremrangebylex_unread key unread
      rw [run, procZremrangebylex, same]
      cases result with
      | none => exact ⟨_, rfl⟩
      | some result =>
          rw [Program.done_bind]
          simp only
          split_ifs
          · exact ⟨_, rfl⟩
          · exact ⟨_, rfl⟩
  | _ => exact unread.elim

theorem ZsetCommand.writesValue (float : FloatUnit) {command : ZsetCommand}
    (read : ¬command.Unread) :
    WritesValue none command.key true DataType.zsize Reply.IsError (command.run float) := by
  cases command with
  | zadd key flags elements => exact writesValue_procZadd float key flags elements
  | zincrby key increment member =>
      simp only [run, procZincrby]
      cases float.bytesDouble increment with
      | none => exact writesValue_done trivial
      | some score =>
          exact (writesValue_zincr float key member score _).map
            (answers_refused (fun _ => rfl) fun _ => trivial)
  | zrem key members =>
      simp only [run, procZrem]
      split_ifs
      · exact writesValue_done trivial
      · exact (writesValue_multiZdel key (byteSet members)).map fun result => ensures_error trivial
  | zscore key member =>
      refine ((readsValue_zget member).map fun result => ensures_error ?_).writesValue
      split_ifs <;> trivial
  | zcard key =>
      refine (readsValue_zsize.map fun result => ensures_error ?_).writesValue
      trivial
  | zremrangebyscore key min max =>
      exact (writesValue_zremrangebyscore float key min max true).map fun result =>
        ensures_error trivial
  | zremrangebyrank key start stop => exact writesValue_procZremrangebyrank float key start stop
  | zremrangebylex key min max =>
      refine (writesValue_zremrangebylex key read).map fun result => ?_
      cases result with
      | none => exact fun failed => failed.elim
      | some result => exact ensures_error trivial

/-! ### All of them -/

namespace ValueCommand

/-- The type of the values a command works on. -/
def type : ValueCommand → UInt8
  | string _ => DataType.kv
  | hash _ | hincrbyfloat _ _ _ => DataType.hsize
  | set _ => DataType.ssize
  | list _ => DataType.lsize
  | zset _ => DataType.zsize

def careful : ValueCommand → Bool
  | hash command => command.careful
  | _ => true

def Unread : ValueCommand → Prop
  | zset command => command.Unread
  | _ => False

theorem run_unread (floats : Floats) {command : ValueCommand} (unread : command.Unread) :
    ∃ reply, command.run floats = .done reply := by
  cases command with
  | zset command => exact command.run_unread floats.double unread
  | _ => exact unread.elim

theorem writesValue (floats : Floats) {command : ValueCommand} (read : ¬command.Unread) :
    WritesValue none command.key command.careful command.type Reply.IsError
      (command.run floats) := by
  cases command with
  | string command => exact command.writesValue floats.longDouble
  | hash command => exact command.writesValue
  | hincrbyfloat key field by' => exact writesValue_procHincrbyfloat _ _ key field by'
  | set command => exact command.writesValue
  | list command => exact command.writesValue
  | zset command => exact ZsetCommand.writesValue floats.double read

end ValueCommand

end Vcdb
