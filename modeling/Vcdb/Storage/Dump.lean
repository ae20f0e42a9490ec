import Vcdb.Codec.RdbEncoder
import Vcdb.Storage.Hash
import Vcdb.Storage.List
import Vcdb.Storage.Set
import Vcdb.Storage.ZsetRange

/-!
# Dumping a value

Metadata is read under the lock of the key and the elements of a collection in a snapshot taken
behind it.  They are saved one by one, and counted.
-/

namespace Vcdb

section Object

variable (encoder : RdbEncoder)

/-- Save what an iterator delivers, counting it. -/
def saveItems {α : Type} (save : α → Saving Int) : List α → UInt64 → Saving (Except Int UInt64)
  | [], cnt => return .ok cnt
  | item :: items, cnt => do
      if (← save item) = -1 then return .error (-1) else saveItems save items (cnt + 1)

/-- The number of elements and the elements; an iterator has to deliver as many as are counted. -/
def saveCollection {α : Type} (length : UInt64) (save : α → Saving Int) (items : List α) :
    Saving Int := do
  if (← rdbSaveLen encoder length) = -1 then return -1
  else
    match ← saveItems save items 0 with
    | .error code => return code
    | .ok cnt => if cnt ≠ length then return mkeyDecodecErr else return 1

def saveField (entry : Bytes × Bytes) : Saving Int := do
  if (← saveRawString encoder entry.1) = -1 then return -1
  else if (← saveRawString encoder entry.2) = -1 then return -1
  else return 1

def saveMember (member : Bytes) : Saving Int := do
  if (← saveRawString encoder member) = -1 then return -1 else return 1

def saveScored (item : Bytes × Double) : Saving Int := do
  if (← saveRawString encoder item.1) = -1 then return -1
  else if (← rdbSaveBinaryDoubleValue encoder item.2) = -1 then return -1
  else return 1

variable (lzfCompress : (data : Bytes) → (outLen : Nat) → Bytes)

/-- Read and save consecutive cells. -/
def saveCells (snapshot : DB) (key : Bytes) (version : UInt16) :
    Nat → UInt64 → Bytes → Command (Int × Bytes)
  | 0, _, output => return (1, output)
  | n + 1, curSeq, output => do
      let (ret, val) := listItemVal (← snapshotGet snapshot (encodeListKey key curSeq version))
      if ret ≠ 1 then return (-1, output)
      else
        let (saved, output) := rdbSaveRawString encoder lzfCompress val output
        if saved = -1 then return (-1, output)
        else saveCells snapshot key version n (seqAfter curSeq) output

/-- Save the value some metadata stands for, behind what has been saved before. -/
def rdbSaveObject (float : FloatUnit) (key : Bytes) (dtype : UInt8) (metaVal : Bytes)
    (snapshot : DB) (output : Bytes) : Command (Int × Bytes) :=
  if dtype = DataType.kv then
    match KvMetaVal.decodeMetaVal metaVal with
    | .error code => return (code, output)
    | .ok kv =>
        let (saved, output) := rdbSaveRawString encoder lzfCompress kv.value output
        return (if saved = -1 then -1 else 1, output)
  else if dtype = DataType.hsize then
    match MetaVal.decodeMetaVal metaVal with
    | .error code => return (code, output)
    | .ok hv =>
        let items := hiterator snapshot key hv.version
        return saveCollection encoder hv.length (saveField encoder) items output
  else if dtype = DataType.ssize then
    match MetaVal.decodeMetaVal metaVal with
    | .error code => return (code, output)
    | .ok sv =>
        let items := siterator snapshot key sv.version
        return saveCollection encoder sv.length (saveMember encoder) items output
  else if dtype = DataType.zsize then
    match MetaVal.decodeMetaVal metaVal with
    | .error code => return (code, output)
    | .ok zv =>
        let entries := zscanInternal float snapshot key [] [] none .forward zv.version
        let items := ZIterator.items key zv.version entries
        return saveCollection encoder zv.length (saveScored encoder) items output
  else if dtype = DataType.lsize then
    match ListMetaVal.decodeMetaVal metaVal with
    | .error code => return (code, output)
    | .ok lv =>
        let (saved, output) := rdbSaveLen encoder lv.length output
        if saved = -1 then return (-1, output)
        else
          saveCells encoder lzfCompress snapshot key lv.version lv.length.toNat (getSeqByIndex 0 lv)
            output
  else return (invalidMetaval, output)

/-- A type, an object and a footer. -/
def saveDump (crc64 : Bytes → UInt64) (float : FloatUnit) (key : Bytes) (dtype : UInt8)
    (metaVal : Bytes) (snapshot : DB) : Command (Int × Bytes) :=
  let (saved, output) := rdbSaveObjectType encoder dtype []
  if saved < 0 then return (-1, output)
  else do
    let (saved, output) ←
      rdbSaveObject encoder lzfCompress float key dtype metaVal snapshot output
    if saved < 0 then return (-1, output)
    else
      let (saved, output) := encodeFooter encoder crc64 output
      if saved = -1 then return (-1, output) else return (1, output)

end Object

/-- What is read of a key before it is dumped: its type, its metadata, a snapshot for the elements
of a collection and, when it is asked for, the time that is left to the key. -/
def dumpMeta (key : Bytes) (withPttl : Bool) :
    Command (Except Int (UInt8 × Bytes × DB × Option Int64)) :=
  recordKeyLock key do
    match ← dbGet (encodeMetaKey key) with
    | .notFound => return .error 0
    | .error => return .error storageErr
    | .ok metaVal =>
        if metaVal.length < 4 then return .error invalidMetaval
        else if metaVal[posDel]? ≠ some keyEnabledMask then return .error 0
        else
          let dtype := metaVal.headD 0
          let snapshot ←
            if dtype = DataType.hsize ∨ dtype = DataType.ssize ∨ dtype = DataType.zsize ∨
                dtype = DataType.lsize then getSnapshot
            else pure ∅
          if withPttl then
            let (ret, ex) ← eget key
            if ret < 0 then return .error ret
            else if ret = 1 then
              let remain := ex - (← timeMs)
              if remain < 0 then return .error 0
              else return .ok (dtype, metaVal, snapshot, some remain)
            else return .ok (dtype, metaVal, snapshot, some 0)
          else return .ok (dtype, metaVal, snapshot, none)

/-- The serialized value of a key; the text is `none` when there is none. -/
def dump (lzfCompress : (data : Bytes) → (outLen : Nat) → Bytes) (crc64 : Bytes → UInt64)
    (float : FloatUnit) (key : Bytes) (withPttl compress : Bool) :
    Command (Int × Bytes × Option Int64) := do
  let none : Bytes := [110, 111, 110, 101]
  match ← dumpMeta key withPttl with
  | .error ret => return (ret, none, Option.none)
  | .ok (dtype, metaVal, snapshot, pttl) =>
      let (ret, output) ←
        saveDump (dumpEncoder compress) lzfCompress crc64 float key dtype metaVal snapshot
      if ret < 0 then return (-1, none, pttl) else return (1, output, pttl)

end Vcdb
