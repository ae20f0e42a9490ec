import Vcdb.Keyspace.Footprint
import Vcdb.Keyspace.ZsetLex

/-!
# Locality

A command that holds the record mutex of its key from its first look at the store to its last reads
nothing but records of the key.  On stores that agree on these records it runs alike.
-/

namespace Vcdb

/-- Stores with the same records of a key. -/
structure Agree (key : UserKey) (db db' : DB) : Prop where
  keyed : db.WellKeyed
  keyed' : db'.WellKeyed
  same : ∀ record : RecordKey, record.owner = key → db.contents record = db'.contents record

/-- The operations of a command that works on one key. -/
def Touches (key : UserKey) : StorageOp → Prop
  | .get raw => ∃ record : RecordKey, record.owner = key ∧ raw = record.encode
  | .snapshot | .write _ | .timeMs | .rand | .insertFastKey _ _ | .delFastKey _ => True
  | _ => False

/-- Answers that tell the same about a key. -/
def Alike (key : UserKey) : (op : StorageOp) → op.Answer → op.Answer → Prop
  | .snapshot, db, db' => Agree key db db'
  | _, answer, answer' => answer = answer'

/-- Of a snapshot nothing matters but the records of the key. -/
def Local {α : Type} (key : UserKey) : Command α → Prop
  | .done _ => True
  | .call op next => Touches key op ∧
      (∀ answer answer', Alike key op answer answer' → next answer = next answer') ∧
      ∀ answer, Local key (next answer)

section Views

variable {key : UserKey} {db db' : DB}

/-- The items of a key are among its records. -/
theorem Agree.items (agree : Agree key db db') (version : UInt16) :
    db.items key.1 version = db'.items key.1 version := by
  ext field : 1
  rw [DB.get_items, DB.get_items]
  exact agree.same (.item key version field) rfl

/-- So are the entries of its score index. -/
theorem Agree.scoreIndex (agree : Agree key db db') (version : UInt16) :
    db.scoreIndex key.1 version = db'.scoreIndex key.1 version := by
  have stored : ∀ (db : DB) (member : Bytes) (score : Double),
      (db.scoreIndex key.1 version).get (scoreEntry member score) =
        db.contents (.zscore key version score member) := by
    intro db member score
    rw [DB.scoreIndex, SortedMap.get_under, ← encodeZscoreKey_eq_append]
    rfl
  have named : ∀ {db : DB}, db.WellKeyed → ∀ {entry val : Bytes},
      (db.scoreIndex key.1 version).get entry = some val →
        ∃ member score, entry = scoreEntry member score := by
    intro db keyed entry val found
    refine @DB.WellKeyed.scoreEntry_of_mem db key version keyed entry (SortedMap.mem_keys.mpr ?_)
    rw [found]
    rfl
  ext entry : 1
  refine Option.ext fun val => ⟨fun found => ?_, fun found => ?_⟩
  · obtain ⟨member, score, rfl⟩ := named agree.keyed found
    rw [stored, ← agree.same (.zscore key version score member) rfl, ← stored]
    exact found
  · obtain ⟨member, score, rfl⟩ := named agree.keyed' found
    rw [stored, agree.same (.zscore key version score member) rfl, ← stored]
    exact found

end Views

section Rules

variable {α β : Type} {key : UserKey}

theorem Local.bind {command : Command α} {rest : α → Command β} (first : Local key command)
    (later : ∀ value, Local key (rest value)) : Local key (command >>= rest) := by
  induction command with
  | done value => exact later value
  | call op next ih =>
      obtain ⟨touches, alike, continues⟩ := first
      exact ⟨touches, fun answer answer' same =>
        congrArg (fun program : Command α => program.bind rest) (alike answer answer' same),
        fun answer => ih answer (continues answer)⟩

theorem local_dbGet (record : RecordKey) (own : record.owner = key) :
    Local key (dbGet record.encode) :=
  ⟨⟨record, own, rfl⟩, fun _ _ same => congrArg _ same, fun _ => trivial⟩

theorem local_metaKey : Local key (dbGet (encodeMetaKey key.1)) := local_dbGet (.metadata key) rfl

theorem local_itemKey (field : Bytes) (version : UInt16) :
    Local key (dbGet (encodeKeyInternal DataType.item key.1 field version)) :=
  local_dbGet (.item key version field) rfl

theorem local_commitBatch (batch : WriteBatch) : Local key (commitBatch batch) :=
  ⟨trivial, fun _ _ same => congrArg _ same, fun _ => trivial⟩

theorem local_timeMs : Local key timeMs := ⟨trivial, fun _ _ same => congrArg _ same, fun _ => trivial⟩

theorem local_rand : Local key rand := ⟨trivial, fun _ _ same => congrArg _ same, fun _ => trivial⟩

theorem local_insertFastKey (name : Bytes) (ts : Int64) : Local key (insertFastKey name ts) :=
  ⟨trivial, fun _ _ same => congrArg _ same, fun _ => trivial⟩

theorem local_delFastKey (name : Bytes) : Local key (delFastKey name) :=
  ⟨trivial, fun _ _ same => congrArg _ same, fun _ => trivial⟩

/-- A commit, with what follows its success and its failure. -/
theorem local_commit {batch : WriteBatch} {kept lost : Command α} (committed : Local key kept)
    (failed : Local key lost) : Local key (do if ← commitBatch batch then kept else lost) := by
  refine (local_commitBatch batch).bind fun written => ?_
  cases written with
  | true => exact committed
  | false => exact failed

/-- A snapshot of which only the records of the key are used. -/
theorem local_getSnapshot {rest : DB → Command α}
    (agree : ∀ db db', Agree key db db' → rest db = rest db') (later : ∀ db, Local key (rest db)) :
    Local key (getSnapshot >>= rest) := ⟨trivial, agree, later⟩

end Rules

/-! ### Metadata and expiries -/

section Metadata

variable {key : UserKey}

theorem local_getMetaVal (type freshType : UInt8) :
    Local key (getMetaVal type freshType (encodeMetaKey key.1)) := by
  refine local_metaKey.bind fun status => ?_
  cases status with
  | notFound => trivial
  | error => trivial
  | ok metaVal =>
      simp only
      cases MetaVal.decodeMetaVal metaVal with
      | error code => trivial
      | ok mv =>
          simp only
          split_ifs <;> trivial

theorem local_getListMetaVal : Local key (getListMetaVal (encodeMetaKey key.1)) := by
  refine local_metaKey.bind fun status => ?_
  cases status with
  | notFound => trivial
  | error => trivial
  | ok metaVal =>
      simp only
      cases ListMetaVal.decodeMetaVal metaVal with
      | error code => trivial
      | ok lv =>
          simp only
          split_ifs <;> trivial

theorem local_getKvMetaVal : Local key (getKvMetaVal (encodeMetaKey key.1)) := by
  refine local_metaKey.bind fun status => ?_
  cases status with
  | notFound => trivial
  | error => trivial
  | ok metaVal =>
      simp only
      cases KvMetaVal.decodeMetaVal metaVal with
      | error code => trivial
      | ok kv =>
          simp only
          split_ifs <;> trivial

theorem local_eget : Local key (eget key.1) := by
  refine (local_dbGet (.ekey key) rfl).bind fun status => ?_
  cases status with
  | notFound => trivial
  | error => trivial
  | ok strScore => trivial

theorem local_edelOne (batch : WriteBatch) : Local key (edelOne key.1 batch) := by
  refine local_eget.bind fun read => ?_
  simp only
  split_ifs <;> trivial

theorem local_esetOne (batch : WriteBatch) (ts : Int64) : Local key (esetOne key.1 batch ts) := by
  refine local_eget.bind fun read => ?_
  simp only
  split_ifs <;> trivial

theorem local_cancelExpiration (batch : WriteBatch) : Local key (cancelExpiration key.1 batch) :=
  (local_delFastKey _).bind fun _ => local_edelOne batch

theorem local_checkMetaKey : Local key (checkMetaKey key.1) := by
  refine local_metaKey.bind fun status => ?_
  cases status with
  | notFound => trivial
  | error => trivial
  | ok metaVal =>
      simp only
      cases metaVal[posDel]? with
      | none => trivial
      | some del => trivial

theorem local_delKeyInternal (batch : WriteBatch) : Local key (delKeyInternal key.1 batch) := by
  refine local_metaKey.bind fun status => ?_
  cases status with
  | notFound => trivial
  | error => trivial
  | ok metaVal =>
      simp only
      split_ifs
      · rw [markKeyDeleted]
        cases decodeMetaHeader metaVal with
        | none => trivial
        | some found =>
            simp only
            split_ifs
            · exact (local_cancelExpiration _).bind fun _ => trivial
            · trivial
      · trivial

theorem local_incrSize (type : UInt8) (batch : WriteBatch) (sizeKey : Bytes) (mv : MetaVal)
    (incr : Int) : Local key (incrSize type key.1 batch sizeKey mv incr) := by
  rw [incrSize]
  simp only
  split_ifs
  all_goals first
    | trivial
    | exact (local_cancelExpiration _).bind fun _ => trivial

theorem local_commitSize {incr : Command (Int × WriteBatch)} (local' : Local key incr) :
    Local key (commitSize incr) := by
  refine local'.bind fun result => ?_
  simp only
  split_ifs
  · trivial
  · exact local_commit trivial trivial
  · exact local_commit trivial trivial

theorem local_expireAtInternal (ts : Int64) (batch : WriteBatch) (lock : Bool) :
    Local key (expireAtInternal key.1 ts batch lock) := by
  have ends : ∀ (ret : Int) (batch : WriteBatch), Local key (do
      if lock ∧ ret ≥ 0 then
        if ← commitBatch batch then return (2, batch) else return (storageErr, batch)
      else return (2, batch) : Command (Int × WriteBatch)) := by
    intro ret batch
    split_ifs
    · exact local_commit trivial trivial
    · trivial
  have stores : ∀ live : Int, Local key (do
      if live ≤ 0 then return (live, batch)
      else
        let stored ← esetOne key.1 batch ts
        if stored.1 ≤ 0 then return (stored.1, stored.2)
        else
          insertFastKey key.1 ts
          if lock ∧ stored.1 ≥ 0 then
            if ← commitBatch stored.2 then return (2, stored.2)
            else return (storageErr, stored.2)
          else return (2, stored.2) : Command (Int × WriteBatch)) := by
    intro live
    by_cases dead : live ≤ 0
    · rw [if_pos dead]
      trivial
    · rw [if_neg dead]
      refine (local_esetOne batch ts).bind fun stored => ?_
      by_cases failed : stored.1 ≤ 0
      · rw [if_pos failed]
        trivial
      · rw [if_neg failed]
        exact (local_insertFastKey _ _).bind fun _ => ends stored.1 stored.2
  refine local_timeMs.bind fun now => ?_
  by_cases past : ts ≤ now
  · rw [if_pos past]
    exact (local_delKeyInternal batch).bind fun deleted => ends deleted.1 deleted.2
  · rw [if_neg past]
    cases lock with
    | true => exact local_checkMetaKey.bind stores
    | false => exact stores 1

end Metadata

/-! ### Bodies of the commands -/

section Strings

variable {key : UserKey}

theorem local_setGeneric (batch : WriteBatch) (val : Bytes) (flags : SetFlags) (expireMs : Int64) :
    Local key (setGeneric key.1 batch val flags expireMs) := by
  rw [setGeneric]
  by_cases late : (flags.ex ∨ flags.px) ∧ expireMs ≤ 0
  · rw [if_pos late]
    trivial
  · rw [if_neg late]
    refine local_getKvMetaVal.bind fun read => ?_
    simp only
    split_ifs
    all_goals first
      | trivial
      | exact (local_cancelExpiration _).bind fun _ => trivial
      | exact local_timeMs.bind fun _ => (local_expireAtInternal _ _ false).bind fun _ => trivial

theorem local_setNoLock (val : Bytes) (flags : SetFlags) (expireMs : Int64) :
    Local key (setNoLock key.1 val flags expireMs) := by
  refine (local_setGeneric [] val flags expireMs).bind fun result => ?_
  simp only
  split_ifs
  · trivial
  all_goals exact local_commit trivial trivial

end Strings

section Hashes

variable {key : UserKey}

theorem local_getHashItemValInternal (field : Bytes) (version : UInt16) :
    Local key (getHashItemValInternal (encodeHashKey key.1 field version)) := by
  refine (local_itemKey field version).bind fun status => ?_
  cases status with
  | notFound => trivial
  | error => trivial
  | ok val => trivial

theorem local_hsetOne (batch : WriteBatch) (hv : MetaVal) (checkExists : Bool) (field val : Bytes) :
    Local key (hsetOne batch hv checkExists key.1 field val) := by
  rw [hsetOne]
  split_ifs
  · refine (local_getHashItemValInternal field hv.version).bind fun read => ?_
    simp only
    split_ifs <;> trivial
  · trivial

theorem local_commitHash (batch : WriteBatch) (hv : MetaVal) (incr : Int) :
    Local key (commitHash key.1 batch (encodeMetaKey key.1) hv incr) :=
  local_commitSize (local_incrSize _ batch _ hv incr)

theorem local_hmsetLoop (hv : MetaVal) (checkExists : Bool) (kvs : List (Bytes × Bytes))
    (batch : WriteBatch) (sum : Int) : Local key (hmsetLoop hv checkExists key.1 kvs batch sum) := by
  induction kvs generalizing batch sum with
  | nil => trivial
  | cons kv kvs ih =>
      refine (local_hsetOne batch hv checkExists kv.1 kv.2).bind fun result => ?_
      simp only
      split_ifs
      · trivial
      · exact ih _ _
      · exact ih _ _

theorem local_hdelLoop (hv : MetaVal) (fields : List Bytes) (batch : WriteBatch) (deleted : Int) :
    Local key (hdelLoop hv key.1 fields batch deleted) := by
  induction fields generalizing batch deleted with
  | nil => trivial
  | cons field fields ih =>
      refine (local_getHashItemValInternal field hv.version).bind fun read => ?_
      simp only
      split_ifs
      · trivial
      · exact ih _ _
      · exact ih _ _

end Hashes

section Sets

variable {key : UserKey}

theorem local_getSetItemValInternal (member : Bytes) (version : UInt16) :
    Local key (getSetItemValInternal (encodeSetKey key.1 member version)) := by
  refine (local_itemKey member version).bind fun status => ?_
  cases status with
  | notFound => trivial
  | error => trivial
  | ok val => trivial

theorem local_commitSet (batch : WriteBatch) (sv : MetaVal) (incr : Int) :
    Local key (commitSet key.1 batch (encodeMetaKey key.1) sv incr) :=
  local_commitSize (local_incrSize _ batch _ sv incr)

theorem local_saddLoop (sv : MetaVal) (existing : Bool) (members : List Bytes) (batch : WriteBatch)
    (num : Int) : Local key (saddLoop sv existing key.1 members batch num) := by
  induction members generalizing batch num with
  | nil => trivial
  | cons member members ih =>
      rw [saddLoop]
      split_ifs
      · refine (local_getSetItemValInternal member sv.version).bind fun s => ?_
        split_ifs
        · trivial
        · exact ih _ _
        · exact ih _ _
      · exact ih _ _

theorem local_sremLoop (sv : MetaVal) (members : List Bytes) (batch : WriteBatch) (num : Int) :
    Local key (sremLoop sv key.1 members batch num) := by
  induction members generalizing batch num with
  | nil => trivial
  | cons member members ih =>
      refine (local_getSetItemValInternal member sv.version).bind fun s => ?_
      split_ifs
      · exact ih _ _
      · trivial
      · exact ih _ _

theorem local_sampleWindow (length : UInt64) (cnt : Int64) :
    Local key (sampleWindow length cnt) := by
  rw [sampleWindow]
  split_ifs
  · trivial
  · trivial
  · exact local_rand.bind fun _ => trivial

/-- The members of a set are records of its key. -/
theorem Agree.siterator {db db' : DB} (agree : Agree key db db') (version : UInt16) :
    siterator db key.1 version = siterator db' key.1 version := by
  rw [siterator_eq_items, siterator_eq_items, agree.items]

end Sets

section Zsets

variable {key : UserKey}

theorem local_getZsetItemVal (member : Bytes) (version : UInt16) :
    Local key (getZsetItemVal (encodeZsetKey key.1 member version)) := by
  refine (local_itemKey member version).bind fun status => ?_
  cases status with
  | notFound => trivial
  | error => trivial
  | ok strScore => trivial

theorem local_commitZset (batch : WriteBatch) (zv : MetaVal) (incr : Int) :
    Local key (commitZset key.1 batch zv incr) :=
  local_commitSize (local_incrSize _ batch _ zv incr)

theorem local_zdelOne (batch : WriteBatch) (member : Bytes) (version : UInt16) :
    Local key (zdelOne batch key.1 member version) := by
  refine (local_getZsetItemVal member version).bind fun read => ?_
  simp only
  split_ifs <;> trivial

theorem local_zsetOne (float : FloatUnit) (batch : WriteBatch) (needCheck : Bool) (member : Bytes)
    (score : Double) (version : UInt16) (flags : ZaddFlags) :
    Local key (zsetOne float batch needCheck key.1 member score version flags) := by
  rw [zsetOne]
  by_cases number : score.isNan = true
  · rw [if_pos number]
    trivial
  · rw [if_neg number]
    cases needCheck with
    | false => trivial
    | true =>
        refine (local_getZsetItemVal member version).bind fun read => ?_
        simp only
        split_ifs <;> trivial

theorem local_zsetLoop (float : FloatUnit) (needCheck : Bool) (version : UInt16)
    (flags : ZaddFlags) (members : List (Bytes × Bytes)) (batch : WriteBatch)
    (added updated : Int) :
    Local key (zsetLoop float needCheck key.1 version flags members batch added updated) := by
  induction members generalizing batch added updated with
  | nil => trivial
  | cons member members ih =>
      rw [zsetLoop]
      cases float.bytesDouble member.2 with
      | none => trivial
      | some score =>
          refine (local_zsetOne float batch needCheck member.1 score version flags).bind
            fun outcome => ?_
          cases outcome with
          | error code => trivial
          | ok result => exact ih _ _ _

theorem local_zsetNoLock (float : FloatUnit) (sortedSet : SortedMap Bytes Bytes)
    (flags : ZaddFlags) : Local key (zsetNoLock float key.1 sortedSet flags) := by
  rw [zsetNoLock]
  by_cases both : flags.nx = true ∧ flags.xx = true
  · rw [if_pos both]
    trivial
  · rw [if_neg both]
    by_cases several : flags.incr = true ∧ sortedSet.size > 1
    · rw [if_pos several]
      trivial
    · rw [if_neg several]
      refine (local_getMetaVal _ _).bind fun read => ?_
      simp only
      by_cases failed : read.1 < 0
      · rw [if_pos failed]
        trivial
      · rw [if_neg failed]
        refine (local_zsetLoop float _ _ flags _ _ _ _).bind fun outcome => ?_
        cases outcome with
        | error code => trivial
        | ok result =>
            refine (local_commitZset _ _ _).bind fun iret => ?_
            split_ifs <;> trivial

theorem local_zdelLoop (version : UInt16) (members : List Bytes) (batch : WriteBatch)
    (count : Int) : Local key (zdelLoop key.1 version members batch count) := by
  induction members generalizing batch count with
  | nil => trivial
  | cons member members ih =>
      refine (local_zdelOne batch member version).bind fun result => ?_
      simp only
      split_ifs
      · trivial
      · exact ih _ _

theorem local_zdelNoLock (members : SortedMap Bytes Unit) :
    Local key (zdelNoLock key.1 members) := by
  refine (local_getMetaVal _ _).bind fun read => ?_
  simp only
  by_cases idle : read.1 ≤ 0
  · rw [if_pos idle]
    trivial
  · rw [if_neg idle]
    refine (local_zdelLoop _ _ _ _).bind fun outcome => ?_
    cases outcome with
    | error code => trivial
    | ok result => exact (local_commitZset _ _ _).bind fun _ => trivial

theorem local_zremrangeLoop {γ : Type} (starts continues : γ → Bool) (member : γ → Bytes)
    (remove : Bool) (version : UInt16) (items : List γ) (batch : WriteBatch) (count : Int) :
    Local key (zremrangeLoop starts continues member remove key.1 version items batch count) := by
  induction items generalizing batch count with
  | nil => trivial
  | cons item items ih =>
      rw [zremrangeLoop]
      split_ifs
      · exact ih _ _
      · trivial
      · refine (local_zdelOne batch (member item) version).bind fun result => ?_
        simp only
        split_ifs
        · trivial
        · exact ih _ _
      · exact ih _ _

/-- What a scan of the score index delivers. -/
theorem Agree.scores {db db' : DB} (agree : Agree key db db') (float : FloatUnit)
    (scoreStart scoreEnd : Bytes) (version : UInt16) :
    ZIterator.items key.1 version
        (zscanInternal float db key.1 scoreStart scoreEnd none .forward version) =
      ZIterator.items key.1 version
        (zscanInternal float db' key.1 scoreStart scoreEnd none .forward version) := by
  rw [agree.keyed.items_forward, agree.keyed'.items_forward, DB.zitems, DB.zitems, agree.scoreIndex]

/-- What a scan by member delivers. -/
theorem Agree.members {db db' : DB} (agree : Agree key db db') (start stop : Bytes)
    (version : UInt16) :
    zscanbylexInternal db key.1 start stop version =
      zscanbylexInternal db' key.1 start stop version := by
  rw [zscanbylexInternal_eq, zscanbylexInternal_eq, agree.items]

end Zsets

section Lists

variable {key : UserKey}

theorem local_getListItemValInternal (seq : UInt64) (version : UInt16) :
    Local key (getListItemValInternal (encodeListKey key.1 seq version)) :=
  (local_dbGet (.item key version (be64 seq)) rfl).bind fun _ => trivial

theorem local_deleteList (metaKey : Bytes) (length : UInt64) (version : UInt16)
    (batch : WriteBatch) : Local key (deleteList key.1 metaKey length version batch) :=
  (local_cancelExpiration _).bind fun _ => trivial

theorem local_doListPop (metaKey : Bytes) (lv : ListMetaVal) (lp : ListPosition) :
    Local key (doListPop key.1 metaKey lv lp) := by
  refine (local_getListItemValInternal _ lv.version).bind fun read => ?_
  simp only
  split_ifs
  · exact (local_deleteList _ _ _ _).bind fun _ => local_commit trivial trivial
  · exact local_commit trivial trivial
  · trivial

theorem local_doListPush (vals : List Bytes) (metaKey : Bytes) (lv : ListMetaVal)
    (lp : ListPosition) : Local key (doListPush key.1 vals metaKey lv lp) := by
  unfold doListPush
  split_ifs
  · trivial
  · trivial
  · exact local_commit trivial trivial

end Lists

end Vcdb
