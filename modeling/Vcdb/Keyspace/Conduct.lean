import Vcdb.Keyspace.Locality

/-!
# Conduct of the requests

Most requests that write hold the record mutex of their key from their first look at the store to
their last.  DEL commits without a mutex and MSET when it has given the mutexes back, and
ZREMRANGEBYRANK looks for its members before it takes the mutex.
-/

namespace Vcdb

/-- The rest of a command that holds the mutex of its key, which it gives back at its end. -/
inductive Inside {α : Type} (key : UserKey) : Command α → Prop
  | call {op : StorageOp} {next : op.Answer → Command α} (touches : Touches key op)
      (alike : ∀ answer answer', Alike key op answer answer' → next answer = next answer')
      (rest : ∀ answer, Inside key (next answer)) : Inside key (.call op next)
  | unlock {next : Unit → Command α} {value : α} (ends : next () = .done value) :
      Inside key (.call (.unlock key.1) next)

/-- A command that takes the mutex of its key before it looks at the store. -/
inductive Guarded {α : Type} (key : UserKey) : Command α → Prop
  | done (value : α) : Guarded key (.done value)
  | timeMs {next : Int64 → Command α} (rest : ∀ now, Guarded key (next now)) :
      Guarded key (.call .timeMs next)
  | lock {next : Unit → Command α} (inside : Inside key (next ())) :
      Guarded key (.call (.lock key.1) next)

section Rules

variable {α β : Type} {key : UserKey}

theorem Inside.map {command : Command α} {rest : α → Command β} (inside : Inside key command)
    (ends : ∀ value, ∃ result, rest value = .done result) : Inside key (command >>= rest) := by
  induction inside with
  | call touches alike _ ih =>
      exact .call touches (fun answer answer' same =>
        congrArg (fun program : Command α => program.bind rest) (alike answer answer' same)) ih
  | @unlock next value last =>
      obtain ⟨result, same⟩ := ends value
      exact .unlock ((congrArg (fun program : Command α => program.bind rest) last).trans same)

theorem Guarded.map {command : Command α} {rest : α → Command β} (guarded : Guarded key command)
    (ends : ∀ value, ∃ result, rest value = .done result) : Guarded key (command >>= rest) := by
  induction guarded with
  | done value =>
      obtain ⟨result, same⟩ := ends value
      rw [Program.done_bind, same]
      exact .done result
  | timeMs _ ih => exact .timeMs ih
  | lock inside => exact .lock (inside.map ends)

theorem Local.inside {body : Command α} (own : Local key body) :
    Inside key (do
      let result ← body
      unlockKey key.1
      return result) := by
  induction body with
  | done value => exact .unlock rfl
  | call op next ih =>
      obtain ⟨touches, alike, continues⟩ := own
      exact .call touches (fun answer answer' same =>
        congrArg (fun program : Command α => program.bind fun result => unlockKey key.1 >>=
          fun _ => pure result) (alike answer answer' same)) fun answer => ih answer (continues answer)

theorem guarded_recordKeyLock {body : Command α} (own : Local key body) :
    Guarded key (recordKeyLock key.1 body) := .lock own.inside

end Rules

/-! ### Storage operations that hold the mutex -/

section Holding

variable {key : UserKey}

theorem guarded_updateKvCommon {ν : Type} (newVal : KvMetaVal → Int → Except Int (Bytes × ν)) :
    Guarded key (updateKvCommon key.1 newVal) := by
  refine guarded_recordKeyLock (local_getKvMetaVal.bind fun read => ?_)
  simp only
  by_cases failed : read.1 < 0
  · rw [if_pos failed]
    trivial
  · rw [if_neg failed]
    cases newVal read.2 read.1 with
    | error code => trivial
    | ok result => exact local_commit trivial trivial

theorem guarded_setrange (start : Int64) (value : Bytes) :
    Guarded key (setrange key.1 start value) := by
  refine guarded_recordKeyLock (local_getKvMetaVal.bind fun read => ?_)
  simp only
  split_ifs
  all_goals first
    | trivial
    | exact local_commit trivial trivial

theorem guarded_set (val : Bytes) (flags : SetFlags) (expireMs : Int64) :
    Guarded key (Kv.set key.1 val flags expireMs) :=
  guarded_recordKeyLock (local_setNoLock val flags expireMs)

theorem guarded_getset (newval : Bytes) : Guarded key (getset key.1 newval) := by
  refine guarded_recordKeyLock (local_getKvMetaVal.bind fun read => ?_)
  simp only
  split_ifs
  · trivial
  all_goals first
    | exact local_commit trivial trivial
    | exact (local_cancelExpiration _).bind fun _ => local_commit trivial trivial

theorem guarded_expireAt (ts : Int64) : Guarded key (expireAt key.1 ts []) :=
  guarded_recordKeyLock (local_expireAtInternal ts [] true)

theorem guarded_expire (ttl : Int64) (unit : TimeUnit) : Guarded key (expire key.1 ttl unit) := by
  rw [expire]
  cases convert2ms ttl unit with
  | error code => exact .done _
  | ok ttl => exact .timeMs fun now => (guarded_expireAt (now + ttl)).map fun _ => ⟨_, rfl⟩

theorem guarded_hsetCommon (field val : Bytes) (nx : Bool) :
    Guarded key (hsetCommon key.1 field val nx) := by
  refine guarded_recordKeyLock ((local_getMetaVal _ _).bind fun read => ?_)
  have sets : ∀ found : Int, Local key (do
      if found ≠ 0 then return (found, 0)
      else
        let written ← hsetOne [] read.2 (!nx) key.1 field val
        let ret ← commitHash key.1 written.2 (encodeMetaKey key.1) read.2 written.1
        return (ret, written.1)) := by
    intro found
    by_cases present : found ≠ 0
    · rw [if_pos present]
      trivial
    · rw [if_neg present]
      exact (local_hsetOne _ _ _ _ _).bind fun _ => (local_commitHash _ _ _).bind fun _ => trivial
  simp only
  by_cases failed : read.1 < 0
  · rw [if_pos failed]
    trivial
  · rw [if_neg failed]
    by_cases asked : nx = true ∧ read.1 = 1
    · rw [if_pos asked]
      exact (local_getHashItemValInternal field _).bind fun found => sets found.1
    · rw [if_neg asked]
      exact sets 0

theorem guarded_hmset (kvs : SortedMap Bytes Bytes) : Guarded key (hmset key.1 kvs) := by
  refine guarded_recordKeyLock ((local_getMetaVal _ _).bind fun read => ?_)
  simp only
  by_cases failed : read.1 < 0
  · rw [if_pos failed]
    trivial
  · rw [if_neg failed]
    refine (local_hmsetLoop _ _ _ _ _).bind fun outcome => ?_
    cases outcome with
    | error code => trivial
    | ok result => exact local_commitHash _ _ _

theorem guarded_hdel (fields : SortedMap Bytes Unit) : Guarded key (hdel key.1 fields) := by
  refine guarded_recordKeyLock ((local_getMetaVal _ _).bind fun read => ?_)
  simp only
  by_cases idle : read.1 ≠ 1
  · rw [if_pos idle]
    trivial
  · rw [if_neg idle]
    refine (local_hdelLoop _ _ _ _).bind fun outcome => ?_
    cases outcome with
    | error code => trivial
    | ok result => exact (local_commitHash _ _ _).bind fun _ => trivial

theorem guarded_hincrCommon {ν : Type} (field : Bytes) (newVal : Bytes → Int → Except Int ν)
    (render : ν → Bytes) : Guarded key (hincrCommon key.1 field newVal render) := by
  refine guarded_recordKeyLock ((local_getMetaVal _ _).bind fun read => ?_)
  simp only
  by_cases failed : read.1 < 0
  · rw [if_pos failed]
    trivial
  rw [if_neg failed]
  have absent : Local key (.done (read.1, ([] : Bytes))) := trivial
  by_cases exists' : read.1 > 0
  case' pos =>
    rw [if_pos exists']
    refine (local_getHashItemValInternal field _).bind fun found => ?_
  case' neg =>
    rw [if_neg exists']
    refine absent.bind fun found => ?_
  -- What follows is the same.
  all_goals
    by_cases unread : found.1 < 0
    · rw [if_pos unread]
      trivial
    · rw [if_neg unread]
      cases newVal found.2 found.1 with
      | error code => trivial
      | ok new =>
          refine (local_hsetOne _ _ _ _ _).bind fun written => ?_
          by_cases refused : written.1 < 0
          · rw [if_pos refused]
            trivial
          · rw [if_neg refused]
            refine (local_commitHash _ _ _).bind fun ret => ?_
            split_ifs <;> trivial

theorem guarded_sadd (members : SortedMap Bytes Unit) : Guarded key (sadd key.1 members) := by
  refine guarded_recordKeyLock ((local_getMetaVal _ _).bind fun read => ?_)
  simp only
  by_cases failed : read.1 < 0
  · rw [if_pos failed]
    trivial
  · rw [if_neg failed]
    refine (local_saddLoop _ _ _ _ _).bind fun outcome => ?_
    cases outcome with
    | error code => trivial
    | ok result => exact (local_commitSet _ _ _).bind fun _ => trivial

theorem guarded_srem (members : List Bytes) : Guarded key (srem key.1 members) := by
  refine guarded_recordKeyLock ((local_getMetaVal _ _).bind fun read => ?_)
  simp only
  by_cases idle : read.1 ≠ 1
  · rw [if_pos idle]
    trivial
  · rw [if_neg idle]
    refine (local_sremLoop _ _ _ _).bind fun outcome => ?_
    cases outcome with
    | error code => trivial
    | ok result => exact (local_commitSet _ _ _).bind fun _ => trivial

theorem guarded_spop (popcnt : Int64) : Guarded key (spop key.1 popcnt) := by
  refine guarded_recordKeyLock ((local_getMetaVal _ _).bind fun read => ?_)
  simp only
  by_cases idle : read.1 ≠ 1
  · rw [if_pos idle]
    trivial
  · rw [if_neg idle]
    refine local_getSnapshot (fun db db' agree => ?_) fun db => ?_
    · rw [agree.siterator read.2.version]
    · split_ifs
      · trivial
      · trivial
      · refine (local_sampleWindow _ _).bind fun window => ?_
        cases window with
        | error code => trivial
        | ok bounds => exact (local_commitSet _ _ _).bind fun _ => trivial

theorem guarded_multiZset (float : FloatUnit) (sortedSet : SortedMap Bytes Bytes)
    (flags : ZaddFlags) : Guarded key (multiZset float key.1 sortedSet flags) :=
  guarded_recordKeyLock (local_zsetNoLock float sortedSet flags)

theorem guarded_multiZdel (members : SortedMap Bytes Unit) : Guarded key (multiZdel key.1 members) :=
  guarded_recordKeyLock (local_zdelNoLock members)

theorem guarded_zincr (float : FloatUnit) (member : Bytes) (by' : Double) (flags : ZaddFlags) :
    Guarded key (zincr float key.1 member by' flags) := by
  refine guarded_recordKeyLock ((local_getMetaVal _ _).bind fun read => ?_)
  simp only
  by_cases failed : read.1 < 0
  · rw [if_pos failed]
    trivial
  · rw [if_neg failed]
    refine (local_zsetOne float _ _ _ _ _ flags).bind fun outcome => ?_
    cases outcome with
    | error code => trivial
    | ok result =>
        simp only
        split_ifs
        · refine (local_commitZset _ _ _).bind fun iret => ?_
          split_ifs <;> trivial
        · exact local_commit trivial trivial

theorem guarded_zremrangebyscore (float : FloatUnit) (scoreStart scoreEnd : Bytes) (remove : Bool) :
    Guarded key (zremrangebyscore float key.1 scoreStart scoreEnd remove) := by
  rw [zremrangebyscore]
  cases zslParseRange float scoreStart scoreEnd with
  | error code => exact .done _
  | ok range =>
      refine guarded_recordKeyLock ((local_getMetaVal _ _).bind fun read => ?_)
      simp only
      by_cases idle : read.1 ≤ 0
      · rw [if_pos idle]
        trivial
      · rw [if_neg idle]
        refine local_getSnapshot (fun db db' agree => ?_) fun db => ?_
        · simp only [agree.scores float _ _ read.2.version]
        · refine (local_zremrangeLoop _ _ _ _ _ _ _ _).bind fun outcome => ?_
          cases outcome with
          | error code => trivial
          | ok result =>
              simp only
              split_ifs
              · exact (local_commitZset _ _ _).bind fun _ => trivial
              · trivial

theorem guarded_zremrangebylex (keyStart keyEnd : Bytes) :
    Guarded key (zremrangebylex key.1 keyStart keyEnd) := by
  rw [zremrangebylex]
  cases zslParseLexRange keyStart keyEnd with
  | error error =>
      cases error with
      | invalid => exact .done _
      | lengthError => exact .done _
  | ok range =>
      simp only
      by_cases degenerate : range.degenerate keyStart keyEnd = true
      · rw [if_pos degenerate]
        exact .done _
      · rw [if_neg degenerate]
        refine guarded_recordKeyLock ((local_getMetaVal _ _).bind fun read => ?_)
        by_cases idle : read.1 ≤ 0
        · rw [if_pos idle]
          trivial
        · rw [if_neg idle]
          refine local_getSnapshot (fun db db' agree => ?_) fun db => ?_
          · simp only [agree.members _ _ read.2.version]
          · refine (local_zremrangeLoop _ _ _ _ _ _ _ _).bind fun outcome => ?_
            cases outcome with
            | error code => trivial
            | ok result => exact (local_commitZset _ _ _).bind fun _ => trivial

theorem guarded_listPop (lp : ListPosition) : Guarded key (listPop key.1 lp) := by
  refine guarded_recordKeyLock (local_getListMetaVal.bind fun read => ?_)
  simp only
  split_ifs
  · trivial
  · trivial
  · exact local_doListPop _ _ lp

theorem guarded_listPush (vals : List Bytes) (lp : ListPosition) (create : Bool) :
    Guarded key (listPush key.1 vals lp create) := by
  refine guarded_recordKeyLock (local_getListMetaVal.bind fun read => ?_)
  simp only
  split_ifs
  · trivial
  · trivial
  · exact (local_doListPush _ _ _ _).bind fun _ => trivial

theorem guarded_lSet (index : Int64) (val : Bytes) : Guarded key (lSet key.1 index val) := by
  refine guarded_recordKeyLock (local_getListMetaVal.bind fun read => ?_)
  simp only
  split_ifs
  all_goals first
    | trivial
    | exact local_commit trivial trivial

theorem guarded_ltrim (start stop : Int64) : Guarded key (ltrim key.1 start stop) := by
  refine guarded_recordKeyLock (local_getListMetaVal.bind fun read => ?_)
  simp only
  by_cases idle : read.1 ≠ 1
  · rw [if_pos idle]
    trivial
  · rw [if_neg idle]
    split_ifs
    all_goals first
      | exact (local_deleteList _ _ _ _).bind fun _ => local_commit trivial trivial
      | exact local_commit trivial trivial

end Holding

/-! ### Requests -/

/-- How a request uses the record mutex: it holds the mutex of its key throughout, it writes
nothing, or neither. -/
inductive Conduct
  | guarded
  | reading
  | loose
deriving DecidableEq

def HashCommand.conduct : HashCommand → Conduct
  | hset _ _ _ | hsetnx _ _ _ | hmset _ _ | hdel _ _ | hincrby _ _ _ => .guarded
  | hget _ _ | hmget _ _ | hgetall _ | hkeys _ | hvals _ | hexists _ _ | hlen _ => .reading

def SetCommand.conduct : SetCommand → Conduct
  | sadd _ _ | srem _ _ | spop _ _ => .guarded
  | scard _ | sismember _ _ | smembers _ => .reading

def ListCommand.conduct : ListCommand → Conduct
  | lpush _ _ | rpush _ _ | lpushx _ _ | rpushx _ _ | lpop _ | rpop _ | lset _ _ _
  | ltrim _ _ _ => .guarded
  | lindex _ _ | lrange _ _ _ | llen _ => .reading

def ZsetCommand.conduct : ZsetCommand → Conduct
  | zadd _ _ _ | zincrby _ _ _ | zrem _ _ | zremrangebyscore _ _ _ | zremrangebylex _ _ _ => .guarded
  | zscore _ _ | zcard _ => .reading
  | zremrangebyrank _ _ _ => .loose

def ValueCommand.conduct : ValueCommand → Conduct
  | string _ | hincrbyfloat _ _ _ => .guarded
  | hash command => command.conduct
  | set command => command.conduct
  | list command => command.conduct
  | zset command => command.conduct

def Request.conduct : Request → Conduct
  | value command => command.conduct
  | set _ _ _ | setnx _ _ | setex _ _ _ | psetex _ _ _ | getset _ _ | expire _ _ | pexpire _ _
  | expireat _ _ | pexpireat _ _ => .guarded
  | mset _ | del _ | persist _ => .loose

section Guarding

variable {key : UserKey}

/-- A result that may be an error code. -/
theorem guarded_except {ν : Type} {command : Command (Except Int ν)} (guarded : Guarded key command)
    {reply : Except Int ν → Command Reply} (error : ∀ code, ∃ result, reply (.error code) = .done result)
    (ok : ∀ value, ∃ result, reply (.ok value) = .done result) : Guarded key (command >>= reply) := by
  refine guarded.map fun outcome => ?_
  cases outcome with
  | error code => exact error code
  | ok value => exact ok value

theorem StringCommand.guarded (float : LongDoubleUnit) {command : StringCommand}
    (own : command.key = key.1) : Guarded key (command.run float) := by
  have done : ∀ reply : Reply, ∃ result, (return reply : Command Reply) = .done result :=
    fun reply => ⟨reply, rfl⟩
  cases command with
  | append name value =>
      obtain rfl : name = key.1 := own
      exact guarded_except (guarded_updateKvCommon _) (fun _ => done _) fun _ => done _
  | incr name by' | decr name by' =>
      obtain rfl : name = key.1 := own
      simp only [run, procIncr, procDecr, incrBy]
      cases by'.elim (some 1) int64Argument with
      | none => exact .done _
      | some by' =>
          exact guarded_except (guarded_updateKvCommon _) (fun _ => done _) fun _ => done _
  | incrbyfloat name by' =>
      obtain rfl : name = key.1 := own
      simp only [run, procIncrbyfloat]
      cases float.bytesLongDouble by' with
      | none => exact .done _
      | some by' =>
          exact guarded_except (guarded_updateKvCommon _) (fun _ => done _) fun _ => done _
  | setbit name offset bit =>
      obtain rfl : name = key.1 := own
      simp only [run, procSetbit]
      split_ifs
      · exact .done _
      · exact .done _
      · exact guarded_except (guarded_updateKvCommon _) (fun _ => done _) fun _ => done _
  | setrange name start value =>
      obtain rfl : name = key.1 := own
      simp only [run, procSetrange]
      cases int64Argument start with
      | none => exact .done _
      | some first =>
          simp only
          split_ifs
          · exact .done _
          · exact guarded_except (guarded_setrange first value) (fun _ => done _) fun _ => done _

/-- The usual reply to an error code. -/
theorem done_ite {p : Prop} [Decidable p] {left right : Reply} :
    ∃ result, (if p then return left else return right : Command Reply) = .done result := by
  split_ifs
  · exact ⟨_, rfl⟩
  · exact ⟨_, rfl⟩

theorem HashCommand.guarded {command : HashCommand} (conduct : command.conduct = .guarded)
    (own : command.key = key.1) : Guarded key command.run := by
  cases command with
  | hset name field val | hsetnx name field val =>
      obtain rfl : name = key.1 := own
      refine (guarded_hsetCommon field val _).map fun result => ?_
      simp only
      split_ifs <;> exact ⟨_, rfl⟩
  | hmset name kvs =>
      obtain rfl : name = key.1 := own
      simp only [run, procHmset]
      split_ifs
      · exact .done _
      · exact (guarded_hmset _).map fun _ => done_ite
  | hdel name fields =>
      obtain rfl : name = key.1 := own
      simp only [run, procHdel]
      split_ifs
      · exact .done _
      · exact (guarded_hdel _).map fun _ => done_ite
  | hincrby name field by' =>
      obtain rfl : name = key.1 := own
      exact guarded_except (guarded_hincrCommon field _ _) (fun _ => ⟨_, rfl⟩) fun _ => ⟨_, rfl⟩
  | _ => cases conduct

theorem SetCommand.guarded {command : SetCommand} (conduct : command.conduct = .guarded)
    (own : command.key = key.1) : Guarded key command.run := by
  cases command with
  | sadd name members =>
      obtain rfl : name = key.1 := own
      simp only [run, procSadd]
      split_ifs
      · exact .done _
      · exact (guarded_sadd _).map fun _ => done_ite
  | srem name members =>
      obtain rfl : name = key.1 := own
      simp only [run, procSrem]
      split_ifs
      · exact .done _
      · exact (guarded_srem members).map fun _ => done_ite
  | spop name count =>
      obtain rfl : name = key.1 := own
      exact (guarded_spop _).map fun _ => done_ite
  | _ => cases conduct

theorem guarded_procPush {push : Bytes → List Bytes → Command (Int × UInt64)} {vals : List Bytes}
    (guarded : Guarded key (push key.1 vals)) : Guarded key (procPush push key.1 vals) := by
  rw [procPush]
  split_ifs
  · exact .done _
  · exact guarded.map fun _ => done_ite

theorem guarded_replyValue {read : Command (Int × Option Bytes)} (guarded : Guarded key read) :
    Guarded key (replyValue read) := by
  refine guarded.map fun result => ?_
  simp only
  split_ifs
  · exact ⟨_, rfl⟩
  · cases result.2 with
    | none => exact ⟨_, rfl⟩
    | some val => exact ⟨_, rfl⟩

theorem ListCommand.guarded {command : ListCommand} (conduct : command.conduct = .guarded)
    (own : command.key = key.1) : Guarded key command.run := by
  cases command with
  | lpush name vals | rpush name vals | lpushx name vals | rpushx name vals =>
      obtain rfl : name = key.1 := own
      exact guarded_procPush (guarded_listPush vals _ _)
  | lpop name | rpop name =>
      obtain rfl : name = key.1 := own
      exact guarded_replyValue (guarded_listPop _)
  | lset name index val =>
      obtain rfl : name = key.1 := own
      refine (guarded_lSet index val).map fun ret => ?_
      split_ifs <;> exact ⟨_, rfl⟩
  | ltrim name start stop =>
      obtain rfl : name = key.1 := own
      exact (guarded_ltrim start stop).map fun _ => done_ite
  | _ => cases conduct

theorem ZsetCommand.guarded (float : FloatUnit) {command : ZsetCommand}
    (conduct : command.conduct = .guarded) (own : command.key = key.1) :
    Guarded key (command.run float) := by
  cases command with
  | zadd name flags elements =>
      obtain rfl : name = key.1 := own
      cases elements with
      | nil => exact .done _
      | cons element more =>
          simp only [run, procZadd]
          by_cases both : flags.nx = true ∧ flags.xx = true
          · rw [if_pos both]
            exact .done _
          rw [if_neg both]
          by_cases incr : flags.incr = true
          · rw [if_pos incr]
            by_cases several : more ≠ []
            · rw [if_pos several]
              exact .done _
            rw [if_neg several]
            cases float.bytesDouble element.2 with
            | none => exact .done _
            | some score =>
                refine guarded_except (guarded_zincr float element.1 score flags)
                  (fun _ => ⟨_, rfl⟩) fun result => ?_
                simp only
                exact done_ite
          · rw [if_neg incr]
            exact (guarded_multiZset float _ flags).map fun _ => done_ite
  | zincrby name increment member =>
      obtain rfl : name = key.1 := own
      simp only [run, procZincrby]
      cases float.bytesDouble increment with
      | none => exact .done _
      | some score =>
          exact guarded_except (guarded_zincr float member score _) (fun _ => ⟨_, rfl⟩)
            fun _ => ⟨_, rfl⟩
  | zrem name members =>
      obtain rfl : name = key.1 := own
      simp only [run, procZrem]
      split_ifs
      · exact .done _
      · exact (guarded_multiZdel _).map fun _ => done_ite
  | zremrangebyscore name min max =>
      obtain rfl : name = key.1 := own
      exact (guarded_zremrangebyscore float min max true).map fun _ => done_ite
  | zremrangebylex name min max =>
      obtain rfl : name = key.1 := own
      refine (guarded_zremrangebylex min max).map fun result => ?_
      cases result with
      | none => exact ⟨_, rfl⟩
      | some result => exact done_ite
  | _ => cases conduct

theorem ValueCommand.guarded (floats : Floats) {command : ValueCommand}
    (conduct : command.conduct = .guarded) (own : command.key = key.1) :
    Guarded key (command.run floats) := by
  cases command with
  | string command => exact command.guarded floats.longDouble own
  | hash command => exact command.guarded conduct own
  | hincrbyfloat name field by' =>
      obtain rfl : name = key.1 := own
      simp only [run, procHincrbyfloat]
      cases floats.longDouble.bytesLongDouble by' with
      | none => exact .done _
      | some by' =>
          exact guarded_except (guarded_hincrCommon field _ _) (fun _ => ⟨_, rfl⟩) fun _ => ⟨_, rfl⟩
  | set command => exact command.guarded conduct own
  | list command => exact command.guarded conduct own
  | zset command => exact command.guarded floats.double conduct own

theorem guarded_setWithOptions (val : Bytes) (options : SetOptions) :
    Guarded key (setWithOptions key.1 val options) := by
  rw [setWithOptions]
  cases convert2ms options.ttl options.unit with
  | error code => exact .done _
  | ok ttl =>
      refine (guarded_set val options.flags ttl).map fun result => ?_
      simp only
      split_ifs <;> exact ⟨_, rfl⟩

theorem guarded_setExpiring (unit : TimeUnit) (flags : SetFlags) (argument val : Bytes) :
    Guarded key (setExpiring unit flags key.1 argument val) := by
  rw [setExpiring]
  cases int64Argument argument with
  | none => exact .done _
  | some ttl =>
      by_cases early : ttl ≤ 0
      · simp only [if_pos early]
        exact .done _
      simp only [if_neg early]
      cases convert2ms ttl unit with
      | error code => exact .done _
      | ok ttl => exact (guarded_set val flags ttl).map fun _ => done_ite

theorem guarded_expireIn (unit : TimeUnit) (reply : Int → Reply) (argument : Bytes) :
    Guarded key (expireIn unit reply key.1 argument) := by
  rw [expireIn]
  cases string2ll argument with
  | none => exact .done _
  | some when => exact (guarded_expire when unit).map fun _ => done_ite

theorem guarded_expireAtInstant (instant : Int64) : Guarded key (expireAtInstant key.1 instant) :=
  (guarded_expireAt instant).map fun _ => done_ite

/-- The requests that hold the mutex of their key. -/
theorem Request.guarded (floats : Floats) {request : Request} (conduct : request.conduct = .guarded)
    (own : request.keys = [key.1]) : Guarded key (request.run floats) := by
  have only : ∀ {name : Bytes}, [name] = [key.1] → name = key.1 := fun same =>
    List.singleton_inj.mp same
  cases request with
  | value command => exact command.guarded floats conduct (only own)
  | set name val words =>
      obtain rfl := only own
      simp only [run, procSet]
      cases setOptions words {} with
      | error code => exact .done _
      | ok options => exact guarded_setWithOptions val options
  | setnx name val =>
      obtain rfl := only own
      exact (guarded_set val _ _).map fun _ => done_ite
  | setex name seconds val =>
      obtain rfl := only own
      exact guarded_setExpiring _ _ seconds val
  | psetex name millis val =>
      obtain rfl := only own
      exact guarded_setExpiring _ _ millis val
  | getset name val =>
      obtain rfl := only own
      refine guarded_except (guarded_getset val) (fun _ => ⟨_, rfl⟩) fun old => ?_
      cases old with
      | none => exact ⟨_, rfl⟩
      | some val => exact ⟨_, rfl⟩
  | expire name seconds =>
      obtain rfl := only own
      exact guarded_expireIn _ _ seconds
  | pexpire name millis =>
      obtain rfl := only own
      exact guarded_expireIn _ _ millis
  | expireat name seconds =>
      obtain rfl := only own
      simp only [run, procExpireat]
      cases string2ll seconds with
      | none => exact .done _
      | some ts => exact guarded_expireAtInstant _
  | pexpireat name millis =>
      obtain rfl := only own
      simp only [run, procPexpireat]
      cases string2ll millis with
      | none => exact .done _
      | some ts => exact guarded_expireAtInstant _
  | mset kvs => cases conduct
  | del keys => cases conduct
  | persist name => cases conduct

end Guarding

/-! ### Requests that only read -/

section Reading

variable {α β : Type} {key : Bytes} {careful : Bool} {type : UInt8} {abort : α → Prop}
  {command : Command α}

/-- A command of which nothing is committed in the end never writes. -/
theorem follows_quiet {note : Watch} {post : Watch → α → Prop}
    (ends : ∀ last value, post last value → last.committed = none ∧ last.dropped = false)
    (follows : command.Follows (valueMonitor key careful) abort post note) :
    (note.committed = none ∧ note.dropped = false) ∧
      command.Ensures Watch.Quiet fun _ => True := by
  induction command generalizing note with
  | done value => exact ⟨ends note value follows, trivial⟩
  | call op next ih =>
      obtain ⟨allowed, continues⟩ := (Program.follows_call op next).mp follows
      have goes := fun answer watch (noted : Watch.after key careful note op answer = some watch) =>
        ih answer ((continues answer).2 watch noted)
      have quiet : Watch.Quiet op →
          (Program.call op next).Ensures Watch.Quiet fun _ => True := fun quiet => by
        refine ⟨quiet, fun answer => ?_⟩
        cases noted : Watch.after key careful note op answer with
        | none => exact ((continues answer).1 noted).mono fun _ _ => trivial
        | some watch => exact (goes answer watch noted).2
      cases op with
      | lock name | unlock name => exact ⟨(goes () _ rfl).1, quiet trivial⟩
      | get raw =>
          refine ⟨?_, quiet trivial⟩
          by_cases dropped : note.dropped = true
          · exact (goes .notFound { note with expiry := some .notFound } (if_pos dropped)).1
          · have noted := goes .notFound _ (if_neg dropped)
            split_ifs at noted
            · exact noted.1
            · exact noted.1
      | getAt snapshot raw =>
          have noted : Watch.after key careful note (.getAt snapshot raw) .notFound = some note := rfl
          exact ⟨(goes .notFound note noted).1, quiet trivial⟩
      | write batch =>
          have noted : Watch.after key careful note (.write batch) true =
              some { note with committed := some batch } := rfl
          have committed := (goes true _ noted).1.1
          cases committed
      | delFastKey name =>
          have dropped := (goes () _ rfl).1.2
          cases dropped
      | snapshot => exact ⟨(goes ∅ note rfl).1, quiet trivial⟩
      | timeMs | firstTimeout => exact ⟨(goes 0 note rfl).1, quiet trivial⟩
      | rand => exact ⟨(goes 0 note rfl).1, quiet trivial⟩
      | findCursor cursor => exact ⟨(goes none note rfl).1, quiet trivial⟩
      | insertFastKey name ts => exact allowed.elim
      | newCursor element => exact allowed.elim

theorem ReadsValue.quiet (reads : ReadsValue key careful type abort command)
    {reply : α → Command β} (ends : ∀ value, ∃ result, reply value = .done result) :
    (command >>= reply).Ensures Watch.Quiet fun _ => True := by
  refine (follows_quiet (fun last value looked => ?_) reads).2.bind fun value _ => ?_
  · obtain ⟨metadata, rfl⟩ := looked.seen
    exact ⟨rfl, rfl⟩
  · obtain ⟨result, same⟩ := ends value
    rw [same]
    trivial

theorem HashCommand.reads {command : HashCommand} (conduct : command.conduct = .reading) :
    command.run.Ensures Watch.Quiet fun _ => True := by
  cases command with
  | hget name field =>
      refine (readsValue_hget field).quiet fun result => ?_
      simp only
      split_ifs
      · exact ⟨_, rfl⟩
      · cases result.2 with
        | none => exact ⟨_, rfl⟩
        | some val => exact ⟨_, rfl⟩
  | hmget name fields =>
      simp only [run, procHmget]
      split_ifs
      · trivial
      · exact (readsValue_hmget fields).quiet fun _ => done_ite
  | hgetall name | hkeys name | hvals name =>
      refine (readsValue_hgetall _ _).quiet fun result => ?_
      simp only
      split_ifs <;> exact ⟨_, rfl⟩
  | hexists name field =>
      refine (readsValue_hget field).quiet fun result => ?_
      simp only
      split_ifs <;> exact ⟨_, rfl⟩
  | hlen name => exact readsValue_hsize.quiet fun _ => done_ite
  | _ => cases conduct

theorem SetCommand.reads {command : SetCommand} (conduct : command.conduct = .reading) :
    command.run.Ensures Watch.Quiet fun _ => True := by
  cases command with
  | scard name => exact readsValue_scard.quiet fun _ => done_ite
  | sismember name member =>
      refine (readsValue_sismember member).quiet fun result => ?_
      simp only
      split_ifs <;> exact ⟨_, rfl⟩
  | smembers name => exact readsValue_smembers.quiet fun _ => done_ite
  | _ => cases conduct

theorem ListCommand.reads {command : ListCommand} (conduct : command.conduct = .reading) :
    command.run.Ensures Watch.Quiet fun _ => True := by
  cases command with
  | lindex name index =>
      refine (readsValue_lIndex index).quiet fun result => ?_
      simp only
      split_ifs
      · exact ⟨_, rfl⟩
      · cases result.2 with
        | none => exact ⟨_, rfl⟩
        | some val => exact ⟨_, rfl⟩
  | lrange name start stop => exact (readsValue_lrange start stop).quiet fun _ => done_ite
  | llen name => exact readsValue_lLen.quiet fun _ => done_ite
  | _ => cases conduct

theorem ZsetCommand.reads (float : FloatUnit) {command : ZsetCommand}
    (conduct : command.conduct = .reading) :
    (command.run float).Ensures Watch.Quiet fun _ => True := by
  cases command with
  | zscore name member =>
      refine (readsValue_zget member).quiet fun result => ?_
      simp only
      split_ifs <;> exact ⟨_, rfl⟩
  | zcard name => exact readsValue_zsize.quiet fun _ => done_ite
  | _ => cases conduct

/-- The requests that only read. -/
theorem Request.reads (floats : Floats) {request : Request} (conduct : request.conduct = .reading) :
    (request.run floats).Ensures Watch.Quiet fun _ => True := by
  cases request with
  | value command =>
      cases command with
      | hash command => exact command.reads conduct
      | set command => exact command.reads conduct
      | list command => exact command.reads conduct
      | zset command => exact command.reads floats.double conduct
      | string command => cases conduct
      | hincrbyfloat name field by' => cases conduct
  | _ => cases conduct

end Reading

end Vcdb
