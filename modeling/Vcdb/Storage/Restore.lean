import Vcdb.Codec.RdbDecoder
import Vcdb.Storage.Hash
import Vcdb.Storage.List
import Vcdb.Storage.Set
import Vcdb.Storage.Zset

/-!
# Restoring a serialized value

The elements of a collection are read while its batch is built; they are counted as they are read.
A result of `error` stands for the end of the process.
-/

namespace Vcdb

/-- An object: what is read of it before its key is written, and the elements its reader delivers
or the failure the reader ends in. -/
inductive RdbObject
  | string (val : Bytes)
  | list (next : Except Failure (List Bytes))
  | set (next : Except Failure (List Bytes))
  | zset (next : Except Failure (List (Bytes × Double)))
  | hash (next : Except Failure (List (Bytes × Bytes)))

def RdbObject.isString : RdbObject → Bool
  | string _ => true
  | _ => false

/-- The failure the reader of the elements ends in. -/
def RdbObject.failure : RdbObject → Option Failure
  | string _ | list (.ok _) | set (.ok _) | zset (.ok _) | hash (.ok _) => none
  | list (.error failure) | set (.error failure) | zset (.error failure)
  | hash (.error failure) => some failure

/-- The elements of a loader that runs while the batch is built. -/
def lazily {α : Type} (loader : RdbDecoder α) : RdbDecoder (Except Failure α) :=
  fun rest => .ok ((loader rest).map Prod.fst, rest)

/-- An integer entry is turned into decimal text. -/
def getNextString : ZiplistEntry → Bytes
  | .str value => value
  | .int longval => str longval

def ziplistStrings (runtime : Runtime) (zl : Bytes) : List Bytes :=
  (runtime.ziplistEntries zl).map getNextString

/-- Alternating fields and values. -/
def ziplistPairs : List Bytes → Except Failure (List (Bytes × Bytes))
  | [] => .ok []
  | [_] => .error (.code (-1))
  | key :: val :: rest => (ziplistPairs rest).map ((key, val) :: ·)

/-- Alternating members and scores. -/
def ziplistScores (runtime : Runtime) : List Bytes → Except Failure (List (Bytes × Double))
  | [] => .ok []
  | [_] => .error (.code (-1))
  | key :: val :: rest =>
      match runtime.bytesDouble val with
      | none => .error (.code invalidDbl)
      | some score => (ziplistScores runtime rest).map ((key, score) :: ·)

/-- The number of elements of a container. -/
def rdbLoadCount : RdbDecoder UInt64 := do
  let (_, len) ← rdbLoadLen
  if len = rdbLenerr then throw (.code (-1)) else return len

def loadStrings (runtime : Runtime) (len : UInt64) : RdbDecoder (List Bytes) :=
  Loader.elements (fun _ => rdbGenericLoadStringObject runtime) len.toNat []

def loadField (runtime : Runtime) : RdbDecoder (Bytes × Bytes) := do
  let key ← rdbGenericLoadStringObject runtime
  let val ← rdbGenericLoadStringObject runtime
  return (key, val)

def loadFields (runtime : Runtime) (len : UInt64) : RdbDecoder (List (Bytes × Bytes)) :=
  Loader.elements (fun _ => loadField runtime) len.toNat ([], [])

/-- A score in either form; `val` is what the variable holds before. -/
def loadScore (runtime : Runtime) (binary : Bool) (val : Double) : RdbDecoder Double :=
  if binary then rdbLoadBinaryDoubleValue else rdbLoadDoubleValue runtime val

/-- A member and its score; the score variable still holds the one before. -/
def loadScored (runtime : Runtime) (binary : Bool) (current : Bytes × Double) :
    RdbDecoder (Bytes × Double) := do
  let key ← rdbGenericLoadStringObject runtime
  let score ← loadScore runtime binary current.2
  return (key, score)

def loadScores (runtime : Runtime) (binary : Bool) (len : UInt64) :
    RdbDecoder (List (Bytes × Double)) :=
  Loader.elements (loadScored runtime binary) len.toNat ([], 0)

/-- The cells of a quicklist behind its first node; the count of nodes wraps when it is zero. -/
def loadNodes (runtime : Runtime) (len : UInt64) (first : Bytes) : RdbDecoder (List Bytes) := do
  let nodes ← Loader.elements (fun _ => rdbGenericLoadStringObject runtime) (len - 1).toNat []
  return (first :: nodes).flatMap (ziplistStrings runtime)

/-- Without a known type the load fails; the message about it passes a number where its format
expects a string. -/
def unknownType {α : Type} (runtime : Runtime) : RdbDecoder α :=
  if runtime.logsErrors then throw (.crash .wildRead) else throw (.code (-1))

/-- Load an object of a type.  No entry of a single ziplist is ever delivered as a list cell. -/
def rdbLoadObject (runtime : Runtime) : Option RdbType → RdbDecoder RdbObject
  | some .string => do return .string (← rdbGenericLoadStringObject runtime)
  | some .list => do
      let len ← rdbLoadCount
      return .list (← lazily (loadStrings runtime len))
  | some .listZiplist => do
      let _ ← rdbGenericLoadStringObject runtime
      return .list (.ok [])
  | some .listQuicklist => do
      let len ← rdbLoadCount
      let zl ← rdbGenericLoadStringObject runtime
      return .list (← lazily (loadNodes runtime len zl))
  | some .set => do
      let len ← rdbLoadCount
      return .set (← lazily (loadStrings runtime len))
  | some .setIntset => do
      let set ← rdbGenericLoadStringObject runtime
      return .set (.ok ((runtime.intsetValues set).map str))
  | some .zset2 => do
      let len ← rdbLoadCount
      return .zset (← lazily (loadScores runtime true len))
  | some .zset => do
      let len ← rdbLoadCount
      return .zset (← lazily (loadScores runtime false len))
  | some .zsetZiplist => do
      let zl ← rdbGenericLoadStringObject runtime
      return .zset (ziplistScores runtime (ziplistStrings runtime zl))
  | some .hash => do
      let len ← rdbLoadCount
      return .hash (← lazily (loadFields runtime len))
  | some .hashZiplist => do
      let zl ← rdbGenericLoadStringObject runtime
      return .hash (ziplistPairs (ziplistStrings runtime zl))
  | some .hashZipmap => throw (.code (-1))
  | some .module | none => unknownType runtime

/-- The object a dump without its footer stands for. -/
def loadDump (runtime : Runtime) : RdbDecoder RdbObject := do
  let rdbtype ← rdbLoadObjectType
  rdbLoadObject runtime rdbtype

/-- The metadata a restored collection is created with. -/
def quickMetaVal (type : UInt8) (metaVal : Bytes) : Except Int MetaVal :=
  if metaVal = [] then .ok { type }
  else
    match MetaVal.decodeMetaVal metaVal with
    | .error code => .error code
    | .ok mv =>
        if mv.del = keyDeleteMask then
          .ok { type, version := nextVersion mv.version, length := 0, del := keyEnabledMask }
        else .ok { mv with type }

/-- Add the elements a reader delivers to the batch and write it. -/
def quickly {α : Type} (next : Except Failure (List α)) (write : List α → Command Int) :
    Command (Except Crash Int) :=
  match next with
  | .error (.code ret) => return .ok ret
  | .error (.crash crash) => return .error crash
  | .ok elements => do
      let ret ← write elements
      return .ok ret

def quickHash (name metaKey metaVal : Bytes) (next : Except Failure (List (Bytes × Bytes))) :
    Command (Except Crash Int) :=
  match quickMetaVal DataType.hsize metaVal with
  | .error ret => return .ok ret
  | .ok hv => quickly next fun elements =>
      let batch := elements.map fun element =>
        .put (encodeHashKey name element.1 hv.version) element.2
      commitHash name batch metaKey hv elements.length

def quickSet (key metaKey metaVal : Bytes) (next : Except Failure (List Bytes)) :
    Command (Except Crash Int) :=
  match quickMetaVal DataType.ssize metaVal with
  | .error ret => return .ok ret
  | .ok sv => quickly next fun elements =>
      let batch := elements.map fun element => .put (encodeSetKey key element sv.version) []
      commitSet key batch metaKey sv elements.length

def quickZset (name metaVal : Bytes) (next : Except Failure (List (Bytes × Double))) :
    Command (Except Crash Int) :=
  match quickMetaVal DataType.zsize metaVal with
  | .error ret => return .ok ret
  | .ok zv => quickly next fun elements => do
      let batch := elements.flatMap fun element => zputs name element.1 element.2 zv.version
      let ret ← commitZset name batch zv elements.length
      return if ret < 0 then ret else 1

/-- The metadata a restored list is created with. -/
def quickListMetaVal (metaVal : Bytes) : Except Int ListMetaVal :=
  if metaVal = [] then .ok { type := DataType.lsize }
  else
    match ListMetaVal.decodeMetaVal metaVal with
    | .error code => .error code
    | .ok lv =>
        if lv.del = keyDeleteMask then
          .ok { lv with
            type := DataType.lsize, version := nextVersion lv.version, del := keyEnabledMask }
        else .ok { lv with type := DataType.lsize }

/-- Put cells behind a sequence number, each at the number after the one before. -/
def quickCells (name : Bytes) (version : UInt16) : List Bytes → UInt64 → WriteBatch
  | [], _ => []
  | cell :: cells, itemSeq =>
      .put (encodeListKey name (seqAfter itemSeq) version) cell ::
        quickCells name version cells (seqAfter itemSeq)

/-- Unlike the others this writes its metadata for an empty list, too. -/
def quickList (name metaKey metaVal : Bytes) (next : Except Failure (List Bytes)) :
    Command (Except Crash Int) :=
  match quickListMetaVal metaVal with
  | .error ret => return .ok ret
  | .ok lv => quickly next fun elements => do
      let cells := quickCells name lv.version elements lv.rightSeq
      let lv := { lv with
        rightSeq := lv.rightSeq + UInt64.ofNat elements.length,
        length := lv.length + UInt64.ofNat elements.length }
      if ← commitBatch (cells ++ [.put metaKey (encodeValueListMeta lv)]) then return 1
      else return storageErr

def quickKv (key val metaKey metaVal : Bytes) (expireMs : Int64) : Command Int := do
  let version : Except Int UInt16 :=
    if metaVal = [] then .ok 0
    else
      match KvMetaVal.decodeMetaVal metaVal true with
      | .error code => .error code
      | .ok kv => .ok (if kv.del = keyDeleteMask then nextVersion kv.version else 0)
  match version with
  | .error code => return code
  | .ok version =>
      let batch : WriteBatch := [.put metaKey (encodeKvVal val version)]
      let batch ←
        if 0 < expireMs then
          let now ← timeMs
          let (_, batch) ← expireAt key (expireMs + now) batch false
          pure batch
        else pure batch
      if ← commitBatch batch then return 1 else return storageErr

/-- Write a loaded object. -/
def quickObject (key metaKey metaVal : Bytes) (expire : Int64) :
    RdbObject → Command (Except Crash Int)
  | .string val => do
      let ret ← quickKv key val metaKey metaVal expire
      return .ok ret
  | .list next => quickList key metaKey metaVal next
  | .set next => quickSet key metaKey metaVal next
  | .zset next => quickZset key metaVal next
  | .hash next => quickHash key metaKey metaVal next

/-- Store the expiry of a restored collection, whatever became of the collection itself. -/
def restoreExpire (key : Bytes) (expire : Int64) : Command Bool := do
  let now ← timeMs
  let (_, batch) ← expireAt key (expire + now) [] false
  commitBatch batch

/-- Write a loaded object and its expiry; the second result is the status text of a reply. -/
def writeObject (key metaKey metaVal : Bytes) (expire : Int64) (object : RdbObject) :
    Command (Except Crash (Int × String)) := do
  match ← quickObject key metaKey metaVal expire object with
  | .error crash => return .error crash
  | .ok ret =>
      if 0 < expire ∧ !object.isString then
        if ← restoreExpire key expire then return .ok (ret, "OK")
        else return .ok (storageErr, "none")
      else return .ok (ret, "OK")

/-- Load a dump and write it under a key whose metadata has been read. -/
def restoreObject (runtime : Runtime) (key metaKey metaVal : Bytes) (expire : Int64)
    (data : Bytes) : Command (Except Crash (Int × String)) :=
  match verifyDumpPayload runtime data with
  | none => return .ok (invalidDumpStr, "none")
  | some body =>
      match loadDump runtime body with
      | .error (.code ret) => return .ok (ret, "none")
      | .error (.crash crash) => return .error crash
      | .ok (object, _) => writeObject key metaKey metaVal expire object

/-- An existing key is deleted before the dump is looked at. -/
def restore (runtime : Runtime) (key : Bytes) (expire : Int64) (data : Bytes) (replace : Bool) :
    Command (Except Crash (Int × String)) :=
  if expire < 0 then return .ok (invalidExTime, "none")
  else
    recordKeyLock key do
      let metaKey := encodeMetaKey key
      match ← dbGet metaKey with
      | .error => return .ok (storageErr, "none")
      | .notFound => restoreObject runtime key metaKey [] expire data
      | .ok metaVal =>
          if metaVal.length < 4 then return .ok (invalidMetaval, "none")
          else if metaVal[posDel]? = some keyEnabledMask then
            if replace then
              let (_, batch) ← markKeyDeleted key [] metaKey metaVal
              if ← commitBatch batch then
                restoreObject runtime key metaKey (metaVal.set posDel keyDeleteMask) expire data
              else return .ok (storageErr, "none")
            else return .ok (busyKeyExists, "none")
          else restoreObject runtime key metaKey metaVal expire data

end Vcdb
