import Vcdb.Keyspace.RestoreLoad
import Vcdb.Keyspace.Run

/-!
# What a restore writes

A dump is written under a key that does not exist or has just been deleted: its elements in one
batch, the expiry of a collection in another.  The length of a user key is not limited here, so the
store is looked at through its own keys.
-/

namespace Vcdb

section Batches

variable {db : DB} {raw : Bytes}

def BatchOp.key : BatchOp → Bytes
  | put key _ => key
  | delete key => key

theorem BatchOp.get_apply_of_ne (op : BatchOp) (other : op.key ≠ raw) :
    (op.apply db).get raw = db.get raw := by
  cases op with
  | put key val => exact (SortedMap.get_put db key raw val).trans (if_neg other.symm)
  | delete key => exact (SortedMap.get_erase db key raw).trans (if_neg other.symm)

namespace WriteBatch

theorem get_apply_of_untouched {batch : WriteBatch} (untouched : ∀ op ∈ batch, op.key ≠ raw) :
    (batch.apply db).get raw = db.get raw := by
  induction batch generalizing db with
  | nil => rfl
  | cons op batch ih =>
      have later := @ih (op.apply db) fun other mem => untouched other (List.mem_cons_of_mem _ mem)
      exact later.trans (BatchOp.get_apply_of_ne op (untouched op List.mem_cons_self))

theorem apply_append (first second : WriteBatch) :
    WriteBatch.apply (first ++ second) db = second.apply (first.apply db) :=
  List.foldl_append

theorem apply_puts (bindings : List (Bytes × Bytes)) :
    WriteBatch.apply (bindings.map fun binding => .put binding.1 binding.2) db =
      db.putAll bindings :=
  List.foldl_map

end WriteBatch

end Batches

section Reopening

/-- Metadata a key can be recreated over: none, or one with the deletion flag. -/
def Recreatable (metaVal : Bytes) : Prop :=
  metaVal = [] ∨ ∃ header rest, decodeMetaHeader metaVal = some (header, rest) ∧
    header.del = keyDeleteMask

/-- The version a key is recreated at. -/
def recreatedVersion (metaVal : Bytes) : UInt16 :=
  match decodeMetaHeader metaVal with
  | none => 0
  | some (header, _) => nextVersion header.version

theorem quickMetaVal_eq (type : UInt8) {metaVal : Bytes} (recreatable : Recreatable metaVal) :
    quickMetaVal type metaVal = .ok { type, version := recreatedVersion metaVal } := by
  rcases recreatable with rfl | ⟨header, rest, decoded, flag⟩
  · rfl
  · have nonempty : metaVal ≠ [] := by
      rintro rfl
      cases decoded
    rw [quickMetaVal, if_neg nonempty, decodeMetaVal_of_deleted decoded flag, recreatedVersion,
      decoded]
    simp only [flag, if_true]

theorem quickListMetaVal_eq {metaVal : Bytes} (recreatable : Recreatable metaVal) :
    quickListMetaVal metaVal =
      .ok { type := DataType.lsize, version := recreatedVersion metaVal } := by
  rcases recreatable with rfl | ⟨header, rest, decoded, flag⟩
  · rfl
  · have nonempty : metaVal ≠ [] := by
      rintro rfl
      cases decoded
    rw [quickListMetaVal, if_neg nonempty, ListMetaVal.decodeMetaVal, decoded, recreatedVersion,
      decoded]
    simp only [flag, if_true]

/-- The metadata of a key says that it is live. -/
def MetaLive (db : DB) (key : Bytes) : Prop :=
  ∃ metaVal, db.get (encodeMetaKey key) = some metaVal ∧ metaVal[posDel]? = some keyEnabledMask

theorem decodeMetaHeader_flag {metaVal rest : Bytes} {header : MetaHeader}
    (decoded : decodeMetaHeader metaVal = some (header, rest)) :
    header.del = keyDeleteMask ∨ header.del = keyEnabledMask := by
  match metaVal, decoded with
  | type :: high :: low :: del :: tail, decoded =>
      simp only [decodeMetaHeader] at decoded
      split_ifs at decoded with flag
      obtain ⟨rfl, rfl⟩ := by simpa using decoded
      exact flag

/-- Metadata with its flag set to deleted. -/
theorem recreatable_set {metaVal rest : Bytes} {header : MetaHeader}
    (decoded : decodeMetaHeader metaVal = some (header, rest)) :
    4 ≤ metaVal.length ∧ Recreatable (metaVal.set posDel keyDeleteMask) := by
  match metaVal, decoded with
  | type :: high :: low :: del :: tail, decoded =>
      refine ⟨by simp, Or.inr ⟨⟨type, header.version, keyDeleteMask⟩, rest, ?_, rfl⟩⟩
      simp only [decodeMetaHeader] at decoded
      split_ifs at decoded
      obtain ⟨rfl, rfl⟩ := by simpa using decoded
      rfl

/-- The version a key gets when it is created anew. -/
def DB.recreated (db : DB) (key : Bytes) : UInt16 :=
  match db.get (encodeMetaKey key) with
  | none => 0
  | some metaVal => recreatedVersion metaVal

/-- A key whose metadata, if any, says that it is deleted, in a store with the elements of another
one. -/
structure Reopened (world reopened : World) (key metaVal : Bytes) : Prop where
  recreatable : Recreatable metaVal
  version : recreatedVersion metaVal = world.db.recreated key
  metadata : reopened.db.get (encodeMetaKey key) = if metaVal = [] then none else some metaVal
  elements : ∀ raw, raw.head? = some DataType.item ∨ raw.head? = some DataType.zscore →
    reopened.db.get raw = world.db.get raw
  clock : reopened.clock = world.clock

/-- Keys of expiries and of their index. -/
def IsExpiry (raw : Bytes) : Prop :=
  raw.head? = some DataType.ekey ∨ raw.head? = some DataType.escore

/-- Keys of metadata, items and score entries. -/
def IsContent (raw : Bytes) : Prop :=
  raw.head? = some DataType.metadata ∨ raw.head? = some DataType.item ∨
    raw.head? = some DataType.zscore

theorem isContent_metaKey (key : Bytes) : IsContent (encodeMetaKey key) := Or.inl rfl

theorem isContent_key {type : UInt8} (element : type = DataType.item ∨ type = DataType.zscore)
    (key field : Bytes) (version : UInt16) :
    IsContent (encodeKeyInternal type key field version) := by
  rcases element with rfl | rfl
  · exact Or.inr (Or.inl rfl)
  · exact Or.inr (Or.inr rfl)

theorem IsContent.not_expiry {raw : Bytes} (content : IsContent raw) : ¬IsExpiry raw := by
  rw [IsContent] at content
  rintro (expiry | expiry)
  all_goals
    rw [expiry] at content
    revert content
    decide

theorem IsContent.not_mark {raw : Bytes} (content : IsContent raw) :
    raw.head? ≠ some DataType.delete := by
  rw [IsContent] at content
  intro mark
  rw [mark] at content
  revert content
  decide

variable {world : World}

theorem eval_eget_raw (world : World) (key : Bytes) :
    ∃ found ts, (eget key).eval atomically world = ((found, ts), world) ∧
      (found = 0 ∨ found = 1) := by
  have read : (dbGet (encodeEsetKey key)).eval atomically world =
      (ReadStatus.ofOption (world.db.get (encodeEsetKey key)), world) := rfl
  rw [eget, Program.eval_bind, read]
  cases world.db.get (encodeEsetKey key) with
  | none => exact ⟨0, 0, rfl, Or.inl rfl⟩
  | some strScore => exact ⟨1, _, rfl, Or.inr rfl⟩

/-- Forgetting an expiry deletes keys of expiries only. -/
theorem eval_cancelExpiration_raw (world : World) (key : Bytes) (batch : WriteBatch) :
    ∃ ret ops, (cancelExpiration key batch).eval atomically world =
        ((ret, batch ++ ops), world.delFastKey key) ∧ ∀ op ∈ ops, IsExpiry op.key := by
  obtain ⟨found, ts, read, outcome⟩ := eval_eget_raw (world.delFastKey key) key
  rw [cancelExpiration, Program.eval_bind, eval_delFastKey, edelOne, Program.eval_bind, read]
  rcases outcome with rfl | rfl
  · exact ⟨0, [], by simp, by simp⟩
  · refine ⟨1, [.delete (encodeEscoreKey key ts.toUInt64), .delete (encodeEsetKey key)], rfl, ?_⟩
    simp only [List.mem_cons, List.not_mem_nil, or_false]
    rintro op (rfl | rfl)
    · exact Or.inr rfl
    · exact Or.inl rfl

/-- Storing an expiry puts and deletes keys of expiries only. -/
theorem eval_esetOne_raw (world : World) (key : Bytes) (batch : WriteBatch) (ts : Int64) :
    ∃ ops, (esetOne key batch ts).eval atomically world = ((1, batch ++ ops), world) ∧
      ∀ op ∈ ops, IsExpiry op.key := by
  obtain ⟨found, old, read, outcome⟩ := eval_eget_raw world key
  have notError : found ≠ -1 := by rcases outcome with rfl | rfl <;> decide
  rw [esetOne, Program.eval_bind, read]
  simp only [if_neg notError]
  have stored : ∀ op ∈ ([.put (encodeEsetKey key) (hostOrder64 ts.toUInt64),
      .put (encodeEscoreKey key ts.toUInt64) []] : WriteBatch), IsExpiry op.key := by
    simp only [List.mem_cons, List.not_mem_nil, or_false]
    rintro op (rfl | rfl)
    · exact Or.inl rfl
    · exact Or.inr rfl
  split_ifs
  · refine ⟨.delete (encodeEscoreKey key old.toUInt64) :: _, by rw [List.append_assoc]; rfl, ?_⟩
    intro op mem
    rcases List.mem_cons.mp mem with rfl | mem
    · exact Or.inr rfl
    · exact stored op mem
  · exact ⟨_, rfl, stored⟩

theorem eval_markKeyDeleted_raw (world : World) (key : Bytes) (batch : WriteBatch) (metaKey : Bytes)
    {metaVal rest : Bytes} {header : MetaHeader}
    (decoded : decodeMetaHeader metaVal = some (header, rest))
    (enabled : header.del = keyEnabledMask) :
    ∃ ops, (markKeyDeleted key batch metaKey metaVal).eval atomically world =
        ((1, batch ++ [.put metaKey (metaVal.set posDel keyDeleteMask),
          .put (encodeDeleteKey key header.version) []] ++ ops), world.delFastKey key) ∧
      ∀ op ∈ ops, IsExpiry op.key := by
  obtain ⟨ret, ops, cancelled, expiry⟩ := eval_cancelExpiration_raw world key
    (batch ++ [.put metaKey (metaVal.set posDel keyDeleteMask),
      .put (encodeDeleteKey key header.version) []])
  refine ⟨ops, ?_, expiry⟩
  rw [markKeyDeleted, decoded]
  simp only [enabled, if_true, Program.eval_bind, cancelled]
  rfl

/-- Flipping the deletion flag keeps the version. -/
theorem recreatedVersion_set {metaVal rest : Bytes} {header : MetaHeader}
    (decoded : decodeMetaHeader metaVal = some (header, rest)) :
    recreatedVersion (metaVal.set posDel keyDeleteMask) = recreatedVersion metaVal := by
  match metaVal, decoded with
  | type :: high :: low :: del :: tail, decoded =>
      have flipped : decodeMetaHeader (List.set (type :: high :: low :: del :: tail) posDel
          keyDeleteMask) = some (⟨type, header.version, keyDeleteMask⟩, rest) := by
        simp only [decodeMetaHeader] at decoded
        split_ifs at decoded
        obtain ⟨rfl, rfl⟩ := by simpa using decoded
        rfl
      rw [recreatedVersion, flipped, recreatedVersion, decoded]

/-- A key that is not live is reopened as it is. -/
theorem Reopened.of_deleted {key : Bytes}
    (readable : ∀ metaVal, world.db.get (encodeMetaKey key) = some metaVal →
      (decodeMetaHeader metaVal).isSome)
    (idle : ¬MetaLive world.db key) :
    Reopened world world key ((world.db.get (encodeMetaKey key)).getD []) := by
  cases found : world.db.get (encodeMetaKey key) with
  | none => exact ⟨Or.inl rfl, by rw [DB.recreated, found]; rfl, found, fun _ _ => rfl, rfl⟩
  | some metaVal =>
      obtain ⟨⟨header, rest⟩, decoded⟩ := Option.isSome_iff_exists.mp (readable metaVal found)
      have deleted : header.del = keyDeleteMask := by
        refine (decodeMetaHeader_flag decoded).resolve_right fun enabled => idle
          ⟨metaVal, found, ?_⟩
        rw [(decodeMetaHeader_eq_some decoded).2, enabled]
      have nonempty : metaVal ≠ [] := by
        rintro rfl
        cases decoded
      refine ⟨Or.inr ⟨header, rest, decoded, deleted⟩, ?_, ?_, fun _ _ => rfl, rfl⟩
      · rw [DB.recreated, found]
        rfl
      · rw [found, Option.getD_some, if_neg nonempty]

/-- A live key is reopened by deleting it. -/
theorem Reopened.of_live {key metaVal rest : Bytes} {header : MetaHeader} {ops : WriteBatch}
    (found : world.db.get (encodeMetaKey key) = some metaVal)
    (decoded : decodeMetaHeader metaVal = some (header, rest))
    (expiry : ∀ op ∈ ops, IsExpiry op.key) :
    Reopened world ((world.delFastKey key).withDB (WriteBatch.apply
      ([.put (encodeMetaKey key) (metaVal.set posDel keyDeleteMask),
        .put (encodeDeleteKey key header.version) []] ++ ops) world.db)) key
      (metaVal.set posDel keyDeleteMask) := by
  obtain ⟨long, recreatable⟩ := recreatable_set decoded
  have nonempty : metaVal.set posDel keyDeleteMask ≠ [] := by
    intro empty
    have length := congrArg List.length empty
    rw [List.length_set] at length
    simp only [List.length_nil] at length
    omega
  have untouched : ∀ raw : Bytes, IsContent raw →
      (WriteBatch.apply ([.put (encodeMetaKey key) (metaVal.set posDel keyDeleteMask),
        .put (encodeDeleteKey key header.version) []] ++ ops) world.db).get raw =
      (world.db.put (encodeMetaKey key) (metaVal.set posDel keyDeleteMask)).get raw := by
    intro raw content
    rw [WriteBatch.apply_append, WriteBatch.get_apply_of_untouched]
    · exact BatchOp.get_apply_of_ne (.put (encodeDeleteKey key header.version) [])
        fun same => content.not_mark (by rw [← same]; rfl)
    · rintro op mem rfl
      exact content.not_expiry (expiry op mem)
  refine ⟨recreatable, ?_, ?_, ?_, rfl⟩
  · rw [recreatedVersion_set decoded, DB.recreated, found]
  · rw [World.db_withDB, untouched _ (isContent_metaKey key), SortedMap.get_put_self,
      if_neg nonempty]
  · intro raw family
    have other : raw ≠ encodeMetaKey key := by
      rintro rfl
      rcases family with family | family <;> cases family
    rw [World.db_withDB, untouched raw (Or.inr family), SortedMap.get_put, if_neg other]

/-- A dump is read at once for a key that is not live. -/
theorem eval_restore_idle (runtime : Runtime) (key : Bytes) {expire : Int64} (data : Bytes)
    (replace : Bool) (nonneg : 0 ≤ expire) (idle : ¬MetaLive world.db key)
    (readable : ∀ metaVal, world.db.get (encodeMetaKey key) = some metaVal →
      (decodeMetaHeader metaVal).isSome) :
    (restore runtime key expire data replace).eval atomically world =
      (restoreObject runtime key (encodeMetaKey key)
        ((world.db.get (encodeMetaKey key)).getD []) expire data).eval atomically world := by
  have read : (dbGet (encodeMetaKey key)).eval atomically world =
      (ReadStatus.ofOption (world.db.get (encodeMetaKey key)), world) := rfl
  rw [restore, if_neg (Int64.not_lt.mpr nonneg), eval_recordKeyLock, Program.eval_bind, read]
  cases found : world.db.get (encodeMetaKey key) with
  | none => rfl
  | some metaVal =>
      obtain ⟨⟨header, rest⟩, decoded⟩ := Option.isSome_iff_exists.mp (readable metaVal found)
      have notLive : metaVal[posDel]? ≠ some keyEnabledMask := fun enabled =>
        idle ⟨metaVal, found, enabled⟩
      simp only [ReadStatus.ofOption, if_neg (not_lt.mpr (recreatable_set decoded).1),
        if_neg notLive, Option.getD_some]

/-- With REPLACE a live key is deleted before its dump is looked at. -/
theorem eval_restore_replaced (runtime : Runtime) (key : Bytes) {expire : Int64} (data : Bytes)
    (nonneg : 0 ≤ expire) {metaVal rest : Bytes} {header : MetaHeader} {batch : WriteBatch}
    (found : world.db.get (encodeMetaKey key) = some metaVal)
    (decoded : decodeMetaHeader metaVal = some (header, rest))
    (enabled : header.del = keyEnabledMask)
    (marked : (markKeyDeleted key [] (encodeMetaKey key) metaVal).eval atomically world =
      ((1, batch), world.delFastKey key)) :
    (restore runtime key expire data true).eval atomically world =
      (restoreObject runtime key (encodeMetaKey key) (metaVal.set posDel keyDeleteMask) expire
        data).eval atomically ((world.delFastKey key).withDB (batch.apply world.db)) := by
  have read : (dbGet (encodeMetaKey key)).eval atomically world = (.ok metaVal, world) :=
    Prod.ext (congrArg ReadStatus.ofOption found) rfl
  have flag := (decodeMetaHeader_eq_some decoded).2
  rw [enabled] at flag
  rw [restore, if_neg (Int64.not_lt.mpr nonneg), eval_recordKeyLock, Program.eval_bind, read]
  simp only [if_neg (not_lt.mpr (recreatable_set decoded).1), flag, if_true, Program.eval_bind,
    marked, eval_commitBatch]
  rfl

/-- RESTORE deletes a live key before it looks at the dump. -/
theorem eval_restore (runtime : Runtime) (key : Bytes) {expire : Int64} (data : Bytes)
    {replace : Bool} (nonneg : 0 ≤ expire) (admitted : MetaLive world.db key → replace)
    (readable : ∀ metaVal, world.db.get (encodeMetaKey key) = some metaVal →
      (decodeMetaHeader metaVal).isSome) :
    ∃ metaVal reopened, Reopened world reopened key metaVal ∧
      (restore runtime key expire data replace).eval atomically world =
        (restoreObject runtime key (encodeMetaKey key) metaVal expire data).eval atomically
          reopened := by
  by_cases live : MetaLive world.db key
  · obtain rfl : replace = true := admitted live
    obtain ⟨metaVal, found, enabled⟩ := live
    obtain ⟨⟨header, rest⟩, decoded⟩ := Option.isSome_iff_exists.mp (readable metaVal found)
    have flag := (decodeMetaHeader_eq_some decoded).2
    rw [enabled, Option.some_inj] at flag
    obtain ⟨ops, marked, expiry⟩ := eval_markKeyDeleted_raw world key []
      (encodeMetaKey key) decoded flag.symm
    exact ⟨_, _, Reopened.of_live found decoded expiry,
      eval_restore_replaced runtime key data nonneg found decoded flag.symm marked⟩
  · exact ⟨_, _, Reopened.of_deleted readable live,
      eval_restore_idle runtime key data replace nonneg live readable⟩

/-- Without REPLACE a live key is left alone. -/
theorem eval_restore_busy (runtime : Runtime) (key : Bytes) {expire : Int64} (data : Bytes)
    (nonneg : 0 ≤ expire) (live : MetaLive world.db key)
    (readable : ∀ metaVal, world.db.get (encodeMetaKey key) = some metaVal →
      (decodeMetaHeader metaVal).isSome) :
    (restore runtime key expire data false).eval atomically world =
      (.ok (busyKeyExists, "none"), world) := by
  obtain ⟨metaVal, found, enabled⟩ := live
  obtain ⟨⟨header, rest⟩, decoded⟩ := Option.isSome_iff_exists.mp (readable metaVal found)
  have read : (dbGet (encodeMetaKey key)).eval atomically world = (.ok metaVal, world) :=
    Prod.ext (congrArg ReadStatus.ofOption found) rfl
  rw [restore, if_neg (Int64.not_lt.mpr nonneg), eval_recordKeyLock, Program.eval_bind, read]
  simp [not_lt.mpr (recreatable_set decoded).1, enabled]

end Reopening

section Writing

/-- Elements together with the metadata that counts them, when there are any. -/
def countedBatch (type : UInt8) (key : Bytes) (version : UInt16) (n : Nat)
    (elements : WriteBatch) : WriteBatch :=
  if n = 0 then elements
  else elements ++
    [.put (encodeMetaKey key) (encodeMetaValInternal type (UInt64.ofNat n) version keyEnabledMask)]

namespace RdbValue

/-- The elements of a list as they arrive. -/
def delivered (single : Bool) (cells : List Bytes) : List Bytes := if single then [] else cells

/-- Number of elements. -/
def count : RdbValue → Nat
  | string _ => 0
  | list single cells => (delivered single cells).length
  | set members => members.length
  | zset scores => scores.length
  | hash fields => fields.length

/-- The batch that writes a value under a version of a key. -/
def batch (key : Bytes) (version : UInt16) : RdbValue → WriteBatch
  | string val => [.put (encodeMetaKey key) (encodeKvVal val version)]
  | list single cells =>
      quickCells key version (delivered single cells) uint64Max ++
        [.put (encodeMetaKey key) (encodeListMetaVal (UInt64.ofNat (delivered single cells).length) 0
          (uint64Max + UInt64.ofNat (delivered single cells).length) version)]
  | set members =>
      countedBatch DataType.ssize key version members.length
        (members.map fun member => .put (encodeSetKey key member version) [])
  | zset scores =>
      countedBatch DataType.zsize key version scores.length
        (scores.flatMap fun element => zputs key element.1 element.2 version)
  | hash fields =>
      countedBatch DataType.hsize key version fields.length
        (fields.map fun element => .put (encodeHashKey key element.1 version) element.2)

/-- The metadata a value is written with, if anything is written. -/
def metaVal (version : UInt16) : RdbValue → Option Bytes
  | string val => some (encodeKvVal val version)
  | list single cells =>
      some (encodeListMetaVal (UInt64.ofNat (delivered single cells).length) 0
        (uint64Max + UInt64.ofNat (delivered single cells).length) version)
  | set members =>
      if members.length = 0 then none
      else some (encodeSetMetaVal (UInt64.ofNat members.length) version)
  | zset scores =>
      if scores.length = 0 then none
      else some (encodeZsetMetaVal (UInt64.ofNat scores.length) version)
  | hash fields =>
      if fields.length = 0 then none
      else some (encodeHashMetaVal (UInt64.ofNat fields.length) version)

theorem get_batch_metaKey (db : DB) (key : Bytes) (version : UInt16) (value : RdbValue) :
    ((value.batch key version).apply db).get (encodeMetaKey key) =
      (value.metaVal version).or (db.get (encodeMetaKey key)) := by
  have last : ∀ (batch : WriteBatch) (val : Bytes),
      (WriteBatch.apply (batch ++ [.put (encodeMetaKey key) val]) db).get (encodeMetaKey key) =
        some val := by
    intro batch val
    rw [WriteBatch.apply_append]
    exact SortedMap.get_put_self _ _ _
  have counted : ∀ (type : UInt8) {n : Nat} {elements : WriteBatch}, (n = 0 → elements = []) →
      ((countedBatch type key version n elements).apply db).get (encodeMetaKey key) =
        (if n = 0 then none
          else some (encodeMetaValInternal type (UInt64.ofNat n) version keyEnabledMask)).or
          (db.get (encodeMetaKey key)) := by
    intro type n elements empty
    rw [countedBatch]
    split_ifs with zero
    · rw [empty zero]
      rfl
    · exact last _ _
  cases value with
  | string val => exact last [] _
  | list single cells => exact last _ _
  | set members => exact counted _ fun zero => by rw [List.length_eq_zero_iff.mp zero]; rfl
  | zset scores => exact counted _ fun zero => by rw [List.length_eq_zero_iff.mp zero]; rfl
  | hash fields => exact counted _ fun zero => by rw [List.length_eq_zero_iff.mp zero]; rfl

/-- Type byte of the metadata of a value. -/
def type : RdbValue → UInt8
  | string _ => DataType.kv
  | list _ _ => DataType.lsize
  | set _ => DataType.ssize
  | zset _ => DataType.zsize
  | hash _ => DataType.hsize

theorem metaVal_header {value : RdbValue} {version : UInt16} {written : Bytes}
    (metadata : value.metaVal version = some written) :
    ∃ rest, decodeMetaHeader written = some (⟨value.type, version, keyEnabledMask⟩, rest) := by
  have counted : ∀ {type : UInt8} {n : Nat},
      (if n = 0 then none
        else some (encodeMetaValInternal type (UInt64.ofNat n) version keyEnabledMask)) =
          some written →
      ∃ rest, decodeMetaHeader written = some (⟨type, version, keyEnabledMask⟩, rest) := by
    intro type n present
    split_ifs at present
    cases present
    exact ⟨_, decodeMetaHeader_metaVal _ _ _ _ (Or.inr rfl)⟩
  cases value with
  | string val =>
      cases metadata
      exact ⟨_, decodeMetaHeader_kvVal _ _⟩
  | list single cells =>
      cases metadata
      exact ⟨_, decodeMetaHeader_listMetaVal _ _ _ _ _ (Or.inr rfl)⟩
  | set members => exact counted metadata
  | zset scores => exact counted metadata
  | hash fields => exact counted metadata

end RdbValue

variable {world : World} {key metaVal : Bytes}

/-- The first commit of a collection. -/
theorem eval_commitSize_created (type : UInt8) (batch : WriteBatch) {mv : MetaVal} {n : Nat}
    (new : mv.length = 0) (small : n < 2 ^ 64) :
    (commitSize (incrSize type key batch (encodeMetaKey key) mv n)).eval atomically world =
      (if n = 0 then 0 else 1,
        world.withDB ((countedBatch type key mv.version n batch).apply world.db)) := by
  rw [commitSize, incrSize, if_pos new, countedBatch]
  cases n with
  | zero => simp
  | succ n =>
      have positive : ((n + 1 : Nat) : Int) > 0 := by omega
      rw [if_pos positive, uint64_natCast small]
      simp

theorem eval_quickObject (world : World) (key : Bytes) {value : RdbValue} (expire : Int64)
    (recreatable : Recreatable metaVal) (container : value.object.isString = false)
    (small : value.count < 2 ^ 64) :
    ∃ ret : Int, 0 ≤ ret ∧
      (quickObject key (encodeMetaKey key) metaVal expire value.object).eval atomically world =
        (.ok ret, world.withDB
          ((value.batch key (recreatedVersion metaVal)).apply world.db)) := by
  have answer : ∀ n : Nat, 0 ≤ if n = 0 then (0 : Int) else 1 := by
    intro n
    split_ifs <;> decide
  cases value with
  | string val => cases container
  | list single cells =>
      refine ⟨1, by decide, ?_⟩
      rw [RdbValue.object, quickObject, quickList, quickListMetaVal_eq recreatable]
      simp [quickly, encodeValueListMeta, RdbValue.batch, RdbValue.delivered, uint64Max]
  | set members =>
      replace small : members.length < 2 ^ 64 := small
      rw [RdbValue.object, quickObject, quickSet, quickMetaVal_eq _ recreatable]
      refine ⟨_, answer members.length, ?_⟩
      simp only [quickly, commitSet, incrSsize, Program.eval_bind]
      rw [eval_commitSize_created _ _ rfl small]
      rfl
  | zset scores =>
      replace small : scores.length < 2 ^ 64 := small
      rw [RdbValue.object, quickObject, quickZset, quickMetaVal_eq _ recreatable]
      refine ⟨1, by decide, ?_⟩
      simp only [quickly, commitZset, incrZsize, Program.eval_bind]
      rw [eval_commitSize_created _ _ rfl small]
      simp only [if_neg (not_lt.mpr (answer scores.length))]
      rfl
  | hash fields =>
      replace small : fields.length < 2 ^ 64 := small
      rw [RdbValue.object, quickObject, quickHash, quickMetaVal_eq _ recreatable]
      refine ⟨_, answer fields.length, ?_⟩
      simp only [quickly, commitHash, incrHsize, Program.eval_bind]
      rw [eval_commitSize_created _ _ rfl small]
      rfl

/-- The world after one reading of the clock. -/
def World.tick (world : World) : World := { world with clock := fun n => world.clock (n + 1) }

@[simp]
theorem World.db_tick (world : World) : world.tick.db = world.db := rfl

@[simp]
theorem eval_timeMs (world : World) : timeMs.eval atomically world = (world.clock 0, world.tick) := rfl

/-- An expiry still to come is stored, without a look at its key. -/
theorem eval_expireAt_future (world : World) (key : Bytes) (batch : WriteBatch) {ts : Int64}
    (future : world.clock 0 < ts) :
    ∃ ops after, (expireAt key ts batch false).eval atomically world = ((2, batch ++ ops), after) ∧
      after.db = world.db ∧ ∀ op ∈ ops, IsExpiry op.key := by
  obtain ⟨ops, stored, expiry⟩ := eval_esetOne_raw world.tick key batch ts
  have live : ¬(1 : Int) ≤ 0 := by decide
  refine ⟨ops, { world.tick with expiration := world.expiration.insertFastKey key ts }, ?_, rfl,
    expiry⟩
  rw [expireAt, if_neg (by decide), expireAtInternal, Program.eval_bind, eval_timeMs]
  simp only [if_neg (Int64.not_le.mpr future), Bool.false_eq_true, if_false, Program.pure_eq_done,
    Program.done_bind, if_neg live, Program.eval_bind, stored, false_and]
  rfl

/-- An expiry that is over deletes its key instead. -/
theorem eval_expireAt_over (world : World) (key : Bytes) (batch : WriteBatch) {ts : Int64}
    (past : ts ≤ world.clock 0) :
    (expireAt key ts batch false).eval atomically world =
      ((2, ((delKeyInternal key batch).eval atomically world.tick).1.2),
        ((delKeyInternal key batch).eval atomically world.tick).2) := by
  rw [expireAt, if_neg (by decide), expireAtInternal, Program.eval_bind, eval_timeMs]
  simp only [if_pos past, Program.eval_bind, Bool.false_eq_true, false_and, if_false]
  rfl

theorem Reopened.notLive {reopened : World} (opened : Reopened world reopened key metaVal) :
    ¬MetaLive reopened.db key := by
  rintro ⟨stored, found, enabled⟩
  rw [opened.metadata] at found
  rcases opened.recreatable with rfl | ⟨header, rest, decoded, deleted⟩
  · cases found
  · split_ifs at found
    cases found
    rw [(decodeMetaHeader_eq_some decoded).2, deleted] at enabled
    revert enabled
    decide

theorem Reopened.readable {reopened : World} (opened : Reopened world reopened key metaVal)
    (stored : Bytes) (found : reopened.db.get (encodeMetaKey key) = some stored) :
    (decodeMetaHeader stored).isSome := by
  rw [opened.metadata] at found
  rcases opened.recreatable with rfl | ⟨header, rest, decoded, deleted⟩
  · cases found
  · split_ifs at found
    cases found
    rw [decoded]
    rfl

/-- Deleting a key that is not live changes nothing. -/
theorem eval_delKeyInternal_deleted (world : World) (batch : WriteBatch)
    (readable : ∀ metaVal, world.db.get (encodeMetaKey key) = some metaVal →
      (decodeMetaHeader metaVal).isSome)
    (idle : ¬MetaLive world.db key) :
    (delKeyInternal key batch).eval atomically world = ((0, batch), world) := by
  have read : (dbGet (encodeMetaKey key)).eval atomically world =
      (ReadStatus.ofOption (world.db.get (encodeMetaKey key)), world) := rfl
  rw [delKeyInternal, Program.eval_bind, read]
  cases found : world.db.get (encodeMetaKey key) with
  | none => rfl
  | some metaVal =>
      obtain ⟨⟨header, rest⟩, decoded⟩ := Option.isSome_iff_exists.mp (readable metaVal found)
      have disabled : header.del ≠ keyEnabledMask := fun enabled =>
        idle ⟨metaVal, found, enabled ▸ (decodeMetaHeader_eq_some decoded).2⟩
      simp only [ReadStatus.ofOption, if_pos (recreatable_set decoded).1, markKeyDeleted, decoded,
        if_neg disabled]
      rfl

/-- After a key has been deleted its metadata does not say that it is live. -/
theorem eval_delKeyInternal_notLive (world : World)
    (readable : ∀ metaVal, world.db.get (encodeMetaKey key) = some metaVal →
      (decodeMetaHeader metaVal).isSome) :
    ∃ ret batch after, (delKeyInternal key []).eval atomically world = ((ret, batch), after) ∧
      ¬MetaLive (WriteBatch.apply batch after.db) key := by
  by_cases live : MetaLive world.db key
  · obtain ⟨metaVal, found, enabled⟩ := live
    obtain ⟨⟨header, rest⟩, decoded⟩ := Option.isSome_iff_exists.mp (readable metaVal found)
    have flag := (decodeMetaHeader_eq_some decoded).2
    rw [enabled, Option.some_inj] at flag
    have read : (dbGet (encodeMetaKey key)).eval atomically world = (.ok metaVal, world) :=
      Prod.ext (congrArg ReadStatus.ofOption found) rfl
    obtain ⟨ops, marked, expiry⟩ := eval_markKeyDeleted_raw world key []
      (encodeMetaKey key) decoded flag.symm
    refine ⟨1, _, world.delFastKey key, ?_, (Reopened.of_live found decoded expiry).notLive⟩
    rw [delKeyInternal, Program.eval_bind, read]
    simp only [if_pos (recreatable_set decoded).1]
    exact marked
  · exact ⟨0, [], world, eval_delKeyInternal_deleted world [] readable live, live⟩

/-- The key of a collection is not deleted again by an expiry that is over before it is stored. -/
def RdbValue.Kept (value : RdbValue) (world : World) (ttl : Int64) : Prop :=
  value.object.isString ∨ ttl = 0 ∨ world.clock 1 < ttl + world.clock 0

theorem eval_restoreExpire_future (world : World) (key : Bytes) {expire : Int64}
    (future : world.clock 1 < expire + world.clock 0) :
    ∃ ops after, (restoreExpire key expire).eval atomically world = (true, after) ∧
      after.db = WriteBatch.apply ops world.db ∧ ∀ op ∈ ops, IsExpiry op.key := by
  obtain ⟨ops, after, stored, same, expiry⟩ :=
    eval_expireAt_future world.tick key [] future
  refine ⟨ops, after.withDB (WriteBatch.apply ops after.db), ?_,
    congrArg (WriteBatch.apply ops) same, expiry⟩
  rw [restoreExpire, Program.eval_bind, eval_timeMs]
  simp only [Program.eval_bind, stored, List.nil_append]
  rfl

theorem eval_restoreExpire_over (world : World) (key : Bytes) {expire : Int64}
    (past : expire + world.clock 0 ≤ world.clock 1)
    (readable : ∀ metaVal, world.db.get (encodeMetaKey key) = some metaVal →
      (decodeMetaHeader metaVal).isSome) :
    ∃ after, (restoreExpire key expire).eval atomically world = (true, after) ∧
      ¬MetaLive after.db key := by
  obtain ⟨ret, batch, after, run, idle⟩ :=
    eval_delKeyInternal_notLive world.tick.tick readable
  refine ⟨after.withDB (WriteBatch.apply batch after.db), ?_, idle⟩
  have deletes := eval_expireAt_over world.tick key [] past
  rw [run] at deletes
  rw [restoreExpire, Program.eval_bind, eval_timeMs]
  simp only [Program.eval_bind, deletes]
  rfl

theorem eval_quickKv {reopened : World} (opened : Reopened world reopened key metaVal)
    (val : Bytes) (expire : Int64) :
    ∃ ops after, (quickKv key val (encodeMetaKey key) metaVal expire).eval atomically reopened =
        (1, after) ∧
      after.db = WriteBatch.apply
        ([.put (encodeMetaKey key) (encodeKvVal val (recreatedVersion metaVal))] ++ ops)
        reopened.db ∧ ∀ op ∈ ops, IsExpiry op.key := by
  have written : ∀ version : UInt16, ∃ ops after, (do
        let batch : WriteBatch := [.put (encodeMetaKey key) (encodeKvVal val version)]
        let batch ←
          if 0 < expire then
            let now ← timeMs
            let expired ← expireAt key (expire + now) batch false
            pure expired.2
          else pure batch
        if ← commitBatch batch then return 1 else return storageErr : Command Int).eval atomically
          reopened = (1, after) ∧
      after.db = WriteBatch.apply
        ([.put (encodeMetaKey key) (encodeKvVal val version)] ++ ops) reopened.db ∧
      ∀ op ∈ ops, IsExpiry op.key := by
    intro version
    by_cases expires : 0 < expire
    · by_cases past : expire + reopened.clock 0 ≤ reopened.clock 1
      · have deletes := eval_expireAt_over reopened.tick key
          [.put (encodeMetaKey key) (encodeKvVal val version)] past
        rw [eval_delKeyInternal_deleted reopened.tick.tick _ opened.readable
          opened.notLive] at deletes
        refine ⟨[], reopened.tick.tick.withDB _, ?_, rfl, by simp⟩
        simp only [if_pos expires, Program.eval_bind, eval_timeMs, deletes]
        rfl
      · obtain ⟨ops, after, stored, same, expiry⟩ :=
          eval_expireAt_future reopened.tick key
            [.put (encodeMetaKey key) (encodeKvVal val version)] (Int64.not_le.mp past)
        refine ⟨ops, after.withDB _, ?_, congrArg (WriteBatch.apply _) same, expiry⟩
        simp only [if_pos expires, Program.eval_bind, eval_timeMs, stored]
        rfl
    · refine ⟨[], reopened.withDB _, ?_, rfl, by simp⟩
      simp only [if_neg expires]
      rfl
  rw [quickKv]
  rcases opened.recreatable with rfl | ⟨header, rest, decoded, deleted⟩
  · exact written 0
  · have nonempty : metaVal ≠ [] := by
      rintro rfl
      cases decoded
    rw [recreatedVersion, decoded]
    simp only [if_neg nonempty, KvMetaVal.decodeMetaVal, decoded, deleted, if_true]
    exact written _

theorem readable_batch {reopened : World} (opened : Reopened world reopened key metaVal)
    (value : RdbValue) (version : UInt16) (stored : Bytes)
    (found : ((value.batch key version).apply reopened.db).get (encodeMetaKey key) = some stored) :
    (decodeMetaHeader stored).isSome := by
  rw [RdbValue.get_batch_metaKey] at found
  cases metadata : value.metaVal version with
  | none =>
      rw [metadata] at found
      exact opened.readable stored found
  | some written =>
      obtain ⟨rest, decoded⟩ := RdbValue.metaVal_header metadata
      rw [metadata] at found
      cases found
      rw [decoded]
      rfl

/-- A value is written in one batch, followed by updates of its expiry; a collection whose expiry
is over by then is deleted again. -/
theorem eval_writeObject {reopened : World} (opened : Reopened world reopened key metaVal)
    {value : RdbValue} {ttl : Int64} (nonneg : 0 ≤ ttl) (small : value.count < 2 ^ 64) :
    ∃ ret after, 0 ≤ ret ∧
      (writeObject key (encodeMetaKey key) metaVal ttl value.object).eval atomically reopened =
        (.ok (ret, "OK"), after) ∧
      (value.Kept world ttl → ∃ ops : WriteBatch, (∀ op ∈ ops, IsExpiry op.key) ∧
        after.db = WriteBatch.apply (value.batch key (world.db.recreated key) ++ ops)
          reopened.db) ∧
      (¬value.Kept world ttl → ¬MetaLive after.db key) := by
  rw [writeObject, Program.eval_bind, ← opened.version]
  by_cases string : value.object.isString
  · cases value with
    | string val =>
        obtain ⟨ops, after, written, same, expiry⟩ := eval_quickKv opened val ttl
        refine ⟨1, after, by decide, ?_, fun _ => ⟨ops, expiry, same⟩,
          fun past => absurd (Or.inl rfl) past⟩
        rw [RdbValue.object, quickObject, Program.eval_bind, written]
        simp [RdbObject.isString]
    | list single cells => cases string
    | set members => cases string
    | zset scores => cases string
    | hash fields => cases string
  · rw [Bool.not_eq_true] at string
    obtain ⟨ret, answered, written⟩ :=
      eval_quickObject reopened key ttl opened.recreatable string small
    rw [written]
    simp only [string, Bool.not_false, and_true]
    by_cases expires : 0 < ttl
    · rw [if_pos expires]
      by_cases future : reopened.clock 1 < ttl + reopened.clock 0
      · obtain ⟨ops, after, stored, same, expiry⟩ := eval_restoreExpire_future
          (reopened.withDB ((value.batch key (recreatedVersion metaVal)).apply reopened.db)) key future
        refine ⟨ret, after, answered, ?_, fun _ => ⟨ops, expiry, ?_⟩, fun past => ?_⟩
        · rw [Program.eval_bind, stored]
          rfl
        · rw [same, WriteBatch.apply_append]
          rfl
        · rw [opened.clock] at future
          exact absurd (Or.inr (Or.inr future)) past
      · obtain ⟨after, stored, idle⟩ := eval_restoreExpire_over
          (reopened.withDB ((value.batch key (recreatedVersion metaVal)).apply reopened.db)) key
          (Int64.not_lt.mp future) (readable_batch opened value _)
        refine ⟨ret, after, answered, ?_, fun kept => ?_, fun _ => idle⟩
        · rw [Program.eval_bind, stored]
          rfl
        · rw [opened.clock] at future
          rcases kept with isString | zero | before
          · rw [string] at isString
            cases isString
          · rw [zero] at expires
            exact absurd expires (by decide)
          · exact absurd before future
    · rw [if_neg expires]
      have zero : ttl = 0 := Int64.le_antisymm (Int64.not_lt.mp expires) nonneg
      refine ⟨ret, _, answered, rfl, fun _ => ⟨[], by simp, ?_⟩,
        fun past => absurd (Or.inr (Or.inl zero)) past⟩
      rw [List.append_nil]
      rfl

/-- A dump that carries a value is restored under a key that is not live, or is to be replaced. -/
theorem eval_procRestore {runtime : Runtime} {data body : Bytes} {value : RdbValue} {ttl : Int64}
    {replace : Bool}
    (readable : ∀ metaVal, world.db.get (encodeMetaKey key) = some metaVal →
      (decodeMetaHeader metaVal).isSome)
    (verified : verifyDumpPayload runtime data = some body) (carries : Carries runtime body value)
    (small : value.count < 2 ^ 64) (nonneg : 0 ≤ ttl)
    (admitted : MetaLive world.db key → replace) :
    ∃ metaVal reopened after, Reopened world reopened key metaVal ∧
      (procRestore runtime key ttl data replace).eval atomically world = (.ok .ok, after) ∧
      (value.Kept world ttl → ∀ raw, IsContent raw → after.db.get raw =
        ((value.batch key (world.db.recreated key)).apply reopened.db).get raw) ∧
      (¬value.Kept world ttl → ¬MetaLive after.db key) := by
  obtain ⟨metaVal, reopened, opened, run⟩ := eval_restore runtime key data nonneg admitted readable
  obtain ⟨ret, after, answered, written, kept, past⟩ := eval_writeObject opened nonneg small
  obtain ⟨rest, loaded⟩ := loadDump_of_carries carries
  refine ⟨metaVal, reopened, after, opened, ?_, fun stays raw content => ?_, past⟩
  · rw [procRestore, if_neg (Int64.not_lt.mpr nonneg), Program.eval_bind, run, restoreObject,
      verified]
    simp only [loaded, written, if_neg (not_lt.mpr answered)]
    rfl
  · obtain ⟨ops, expiry, same⟩ := kept stays
    rw [same, WriteBatch.apply_append, WriteBatch.get_apply_of_untouched]
    rintro op mem rfl
    exact content.not_expiry (expiry op mem)

/-- What the failure of a reader makes of a write. -/
def Failure.outcome : Failure → Except Crash Int
  | .code ret => .ok ret
  | .crash reason => .error reason

/-- A reader that ends in an error leaves the store alone. -/
theorem eval_quickObject_failed (world : World) (key metaKey : Bytes) (expire : Int64)
    (recreatable : Recreatable metaVal) {object : RdbObject} {failure : Failure}
    (failed : object.failure = some failure) :
    (quickObject key metaKey metaVal expire object).eval atomically world =
      (failure.outcome, world) := by
  cases object with
  | string val => cases failed
  | list next =>
      cases next <;> cases failed
      rw [quickObject, quickList, quickListMetaVal_eq recreatable]
      cases failure <;> rfl
  | set next =>
      cases next <;> cases failed
      rw [quickObject, quickSet, quickMetaVal_eq _ recreatable]
      cases failure <;> rfl
  | zset next =>
      cases next <;> cases failed
      rw [quickObject, quickZset, quickMetaVal_eq _ recreatable]
      cases failure <;> rfl
  | hash next =>
      cases next <;> cases failed
      rw [quickObject, quickHash, quickMetaVal_eq _ recreatable]
      cases failure <;> rfl

/-- Under metadata without a header nothing is written. -/
theorem eval_quickObject_headless (world : World) (key metaKey : Bytes) (expire : Int64)
    (nonempty : metaVal ≠ []) (headless : decodeMetaHeader metaVal = none) (object : RdbObject) :
    (quickObject key metaKey metaVal expire object).eval atomically world = (.ok (-1), world) := by
  have counted : ∀ type, quickMetaVal type metaVal = .error (-1) := by
    intro type
    rw [quickMetaVal, if_neg nonempty, MetaVal.decodeMetaVal, headless]
  cases object with
  | string val =>
      rw [quickObject, quickKv, if_neg nonempty, KvMetaVal.decodeMetaVal, headless]
      rfl
  | list next =>
      rw [quickObject, quickList, quickListMetaVal, if_neg nonempty, ListMetaVal.decodeMetaVal,
        headless]
      rfl
  | set next => rw [quickObject, quickSet, counted]; rfl
  | zset next => rw [quickObject, quickZset, counted]; rfl
  | hash next => rw [quickObject, quickHash, counted]; rfl

/-- The expiry of a refused value may still be stored, but the reply stays an error. -/
theorem writeObject_refused (world : World) (key metaKey : Bytes) (expire : Int64)
    {object : RdbObject}
    (refused : ∀ ret, ((quickObject key metaKey metaVal expire object).eval atomically world).1 =
      .ok ret → ret < 0) {ret : Int} {val : String}
    (written : ((writeObject key metaKey metaVal expire object).eval atomically world).1 =
      .ok (ret, val)) : ret < 0 := by
  rw [writeObject, Program.eval_bind] at written
  cases result : ((quickObject key metaKey metaVal expire object).eval atomically world).1 with
  | error crash =>
      rw [result] at written
      cases written
  | ok code =>
      have negative := refused code result
      rw [result] at written
      dsimp only at written
      split_ifs at written
      · rw [Program.eval_bind] at written
        split_ifs at written
        · cases written
          exact negative
        · cases written
          decide
      · cases written
        exact negative

theorem restoreObject_refused {runtime : Runtime} (world : World) (key metaKey : Bytes)
    (expire : Int64) {data : Bytes}
    (refused : ∀ object rest body, verifyDumpPayload runtime data = some body →
      loadDump runtime body = .ok (object, rest) →
      ∀ ret, ((quickObject key metaKey metaVal expire object).eval atomically world).1 = .ok ret →
        ret < 0) {ret : Int}
    (restored : ((restoreObject runtime key metaKey metaVal expire data).eval atomically world).1 =
      .ok (ret, "OK")) : ret < 0 := by
  rw [restoreObject] at restored
  cases verified : verifyDumpPayload runtime data with
  | none =>
      rw [verified] at restored
      simp at restored
  | some body =>
      rw [verified] at restored
      dsimp only at restored
      cases loaded : loadDump runtime body with
      | error failure =>
          rw [loaded] at restored
          cases failure <;> simp at restored
      | ok found =>
          obtain ⟨object, rest⟩ := found
          rw [loaded] at restored
          exact writeObject_refused world key metaKey expire
            (refused object rest body verified loaded) restored

/-- What an accepted RESTORE says about its arguments and the store before. -/
structure Accepted (runtime : Runtime) (world : World) (key : Bytes) (ttl : Int64)
    (body : Bytes) (replace : Bool) : Prop where
  nonneg : 0 ≤ ttl
  readable : ∀ metaVal, world.db.get (encodeMetaKey key) = some metaVal →
    (decodeMetaHeader metaVal).isSome
  admitted : MetaLive world.db key → replace
  carries : ∃ value, Carries runtime body value

theorem procRestore_ok {runtime : Runtime} {data : Bytes} {ttl : Int64} {replace : Bool}
    (nonneg : 0 ≤ ttl)
    (accepted : ((procRestore runtime key ttl data replace).eval atomically world).1 = .ok .ok) :
    ∃ ret, 0 ≤ ret ∧
      ((restore runtime key ttl data replace).eval atomically world).1 = .ok (ret, "OK") := by
  rw [procRestore, if_neg (Int64.not_lt.mpr nonneg), Program.eval_bind] at accepted
  cases restored : ((restore runtime key ttl data replace).eval atomically world).1 with
  | error crash =>
      rw [restored] at accepted
      cases accepted
  | ok result =>
      obtain ⟨ret, val⟩ := result
      rw [restored] at accepted
      dsimp only at accepted
      split_ifs at accepted with negative
      · cases accepted
      · cases accepted
        exact ⟨ret, not_lt.mp negative, rfl⟩

theorem readable_of_restored {runtime : Runtime} {data : Bytes} {ttl : Int64} {replace : Bool}
    {ret : Int} (nonneg : 0 ≤ ttl) (success : 0 ≤ ret)
    (restored : ((restore runtime key ttl data replace).eval atomically world).1 = .ok (ret, "OK"))
    {stored : Bytes} (found : world.db.get (encodeMetaKey key) = some stored) :
    (decodeMetaHeader stored).isSome := by
  by_contra headless
  rw [Option.not_isSome_iff_eq_none] at headless
  have read : (dbGet (encodeMetaKey key)).eval atomically world = (.ok stored, world) :=
    Prod.ext (congrArg ReadStatus.ofOption found) rfl
  rw [restore, if_neg (Int64.not_lt.mpr nonneg), eval_recordKeyLock, Program.eval_bind,
    read] at restored
  dsimp only at restored
  match stored, headless with
  | [], _ | [_], _ | [_, _], _ | [_, _, _], _ => simp at restored
  | type :: high :: low :: del :: tail, headless =>
      have notLive : (type :: high :: low :: del :: tail)[posDel]? ≠ some keyEnabledMask := by
        intro enabled
        cases enabled
        simp [decodeMetaHeader] at headless
      rw [if_neg (by simp), if_neg notLive] at restored
      have negative := restoreObject_refused world key (encodeMetaKey key) ttl
        (fun object _ _ _ _ code written => by
          rw [eval_quickObject_headless world key _ ttl (List.cons_ne_nil _ _) headless] at written
          cases written
          decide) restored
      omega

/-- A RESTORE that is accepted was admitted, and its dump carries a value. -/
theorem procRestore_accepted {runtime : Runtime} {data body : Bytes} {ttl : Int64}
    {replace : Bool} (verified : verifyDumpPayload runtime data = some body)
    (accepted : ((procRestore runtime key ttl data replace).eval atomically world).1 = .ok .ok) :
    Accepted runtime world key ttl body replace := by
  have nonneg : 0 ≤ ttl := by
    by_contra negative
    rw [Int64.not_le] at negative
    simp [procRestore, negative, Reply.ok] at accepted
  obtain ⟨ret, success, restored⟩ := procRestore_ok nonneg accepted
  have readable : ∀ metaVal, world.db.get (encodeMetaKey key) = some metaVal →
      (decodeMetaHeader metaVal).isSome :=
    fun _ => readable_of_restored nonneg success restored
  have admitted : MetaLive world.db key → replace := by
    intro live
    by_contra busy
    rw [Bool.not_eq_true] at busy
    subst busy
    rw [eval_restore_busy runtime key data nonneg live readable] at restored
    simp [busyKeyExists] at restored
  refine ⟨nonneg, readable, admitted, ?_⟩
  obtain ⟨metaVal, reopened, opened, run⟩ :=
    eval_restore runtime key data nonneg admitted readable
  rw [run] at restored
  by_contra none
  have negative := restoreObject_refused reopened key (encodeMetaKey key) ttl
    (fun object rest body' verified' loaded code written => by
      rw [verified] at verified'
      cases verified'
      cases failed : object.failure with
      | none =>
          obtain ⟨value, carries, _⟩ := carries_of_loadDump loaded failed
          exact absurd ⟨value, carries⟩ none
      | some failure =>
          have isError := loadDump_isError.2 object rest failure loaded failed
          rw [eval_quickObject_failed reopened key _ ttl opened.recreatable failed] at written
          cases failure with
          | crash crash => cases written
          | code ret' =>
              cases written
              exact isError) restored
  omega

end Writing

end Vcdb
