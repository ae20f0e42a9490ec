import Vcdb.Codec.Integer
import Vcdb.Storage.Metadata
import Vcdb.Storage.Iterator

/-!
# Hashes

The fields of a hash are items under its key and version; the metadata holds their number, kept by
adding the change of every write.
-/

namespace Vcdb

def getHashMetaVal (metaKey : Bytes) : Command (Int × MetaVal) :=
  getMetaVal DataType.hsize DataType.hsize metaKey

def getHashItemValInternal (itemKey : Bytes) : Command (Int × Bytes) := do
  match ← dbGet itemKey with
  | .notFound => return (0, [])
  | .error => return (storageErr, [])
  | .ok val => return (1, val)

/-- Add one field to the batch; the first result is `1` when the field counts as new. -/
def hsetOne (batch : WriteBatch) (hv : MetaVal) (checkExists : Bool) (name key val : Bytes) :
    Command (Int × WriteBatch) := do
  let hkey := encodeHashKey name key hv.version
  if checkExists then
    let (ret, dbval) ← getHashItemValInternal hkey
    if ret < 0 then return (ret, batch)
    else if ret = 0 then return (1, batch ++ [.put hkey val])
    else return (0, if dbval ≠ val then batch ++ [.put hkey val] else batch)
  else return (1, batch ++ [.put hkey val])

def incrHsize (name : Bytes) (batch : WriteBatch) (sizeKey : Bytes) (hv : MetaVal) (incr : Int) :
    Command (Int × WriteBatch) :=
  incrSize DataType.hsize name batch sizeKey hv incr

def commitHash (name : Bytes) (batch : WriteBatch) (metaKey : Bytes) (hv : MetaVal) (incr : Int) :
    Command Int :=
  commitSize (incrHsize name batch metaKey hv incr)

def hsetCommon (name key val : Bytes) (nx : Bool) : Command (Int × Int) :=
  recordKeyLock name do
    let metaKey := encodeMetaKey name
    let (ret, hv) ← getHashMetaVal metaKey
    if ret < 0 then return (ret, 0)
    else
      let (found, _) ←
        if nx ∧ ret = 1 then getHashItemValInternal (encodeHashKey name key hv.version)
        else pure (0, [])
      if found ≠ 0 then return (found, 0)
      else
        -- The comparison `added < 0` of the source tests the pointer, which is never below zero.
        let (added, batch) ← hsetOne [] hv (!nx) name key val
        let ret ← commitHash name batch metaKey hv added
        return (ret, added)

def hset (name key val : Bytes) : Command (Int × Int) := hsetCommon name key val false

def hsetnx (name key val : Bytes) : Command (Int × Int) := hsetCommon name key val true

/-- Add several fields to the batch, counting the new ones. -/
def hmsetLoop (hv : MetaVal) (checkExists : Bool) (name : Bytes) :
    List (Bytes × Bytes) → WriteBatch → Int → Command (Except Int (Int × WriteBatch))
  | [], batch, sum => return .ok (sum, batch)
  | (key, val) :: kvs, batch, sum => do
      let (added, batch) ← hsetOne batch hv checkExists name key val
      if added < 0 then return .error added
      else hmsetLoop hv checkExists name kvs batch (if added > 0 then sum + added else sum)

def hmsetNoLock (name : Bytes) (kvs : SortedMap Bytes Bytes) (checkExists : Bool) :
    Command Int := do
  let metaKey := encodeMetaKey name
  let (ret, hv) ← getHashMetaVal metaKey
  if ret < 0 then return ret
  else
    match ← hmsetLoop hv checkExists name kvs.entries [] 0 with
    | .error code => return code
    | .ok (sum, batch) => commitHash name batch metaKey hv sum

def hmset (name : Bytes) (kvs : SortedMap Bytes Bytes) : Command Int :=
  recordKeyLock name (hmsetNoLock name kvs true)

/-- Delete the fields that exist, counting them. -/
def hdelLoop (hv : MetaVal) (name : Bytes) :
    List Bytes → WriteBatch → Int → Command (Except Int (Int × WriteBatch))
  | [], batch, deleted => return .ok (deleted, batch)
  | key :: fields, batch, deleted => do
      let hkey := encodeHashKey name key hv.version
      let (ret, _) ← getHashItemValInternal hkey
      if ret < 0 then return .error ret
      else if ret = 1 then hdelLoop hv name fields (batch ++ [.delete hkey]) (deleted + 1)
      else hdelLoop hv name fields batch deleted

def hdel (name : Bytes) (fields : SortedMap Bytes Unit) : Command (Int × Int) :=
  recordKeyLock name do
    let metaKey := encodeMetaKey name
    let (ret, hv) ← getHashMetaVal metaKey
    if ret ≠ 1 then return (ret, 0)
    else
      match ← hdelLoop hv name fields.keys [] 0 with
      | .error code => return (code, 0)
      | .ok (deleted, batch) =>
          let ret ← commitHash name batch metaKey hv (-deleted)
          return (ret, deleted)

/-- Replace one field by a value computed from the old one; `newVal` is given the old value and
whether it exists. -/
def hincrCommon {ν : Type} (name key : Bytes) (newVal : Bytes → Int → Except Int ν)
    (render : ν → Bytes) : Command (Except Int ν) :=
  recordKeyLock name do
    let metaKey := encodeMetaKey name
    let (ret, hv) ← getHashMetaVal metaKey
    if ret < 0 then return .error ret
    else
      let (ret, old) ←
        if ret > 0 then getHashItemValInternal (encodeHashKey name key hv.version)
        else pure (ret, [])
      if ret < 0 then return .error ret
      else
        match newVal old ret with
        | .error code => return .error code
        | .ok new =>
            let (added, batch) ← hsetOne [] hv false name key (render new)
            if added < 0 then return .error added
            else
              let ret ← commitHash name batch metaKey hv (if ret = 1 then 0 else added)
              if ret < 0 then return .error ret else return .ok new

/-- Smallest 64-bit integer. -/
def llongMin : Int64 := -0x8000000000000000

/-- Largest 64-bit integer. -/
def llongMax : Int64 := 0x7FFFFFFFFFFFFFFF

/-- Add to an integer held as text. -/
def incrInteger (by' : Int64) (old : Bytes) (ret : Int) : Except Int Int64 :=
  if ret = 0 then .ok by'
  else
    match string2ll old with
    | none => .error invalidInt
    | some oldvalue =>
        if by' < 0 ∧ oldvalue < 0 ∧ by' < llongMin - oldvalue ∨
            by' > 0 ∧ oldvalue > 0 ∧ by' > llongMax - oldvalue then .error intOverflow
        else .ok (oldvalue + by')

def hincr (name key : Bytes) (by' : Int64) : Command (Except Int Int64) :=
  hincrCommon name key (incrInteger by') str

def hsize (name : Bytes) : Command (Int × UInt64) := do
  let (ret, hv) ← getHashMetaVal (encodeMetaKey name)
  if ret ≠ 1 then return (ret, 0) else return (1, hv.length)

def hmgetLoop (hv : MetaVal) (name : Bytes) :
    List Bytes → SortedMap Bytes Bytes → Command (Except Int (SortedMap Bytes Bytes))
  | [], resMap => return .ok resMap
  | reqKey :: reqKeys, resMap => do
      let (ret, val) ← getHashItemValInternal (encodeHashKey name reqKey hv.version)
      if ret = 1 then hmgetLoop hv name reqKeys (resMap.put reqKey val)
      else if ret = 0 then hmgetLoop hv name reqKeys resMap
      else return .error ret

def hmget (name : Bytes) (reqKeys : List Bytes) : Command (Int × SortedMap Bytes Bytes) := do
  let (ret, hv) ← recordKeyLock name do
    let (ret, hv) ← getHashMetaVal (encodeMetaKey name)
    if ret = 1 then
      let _ ← getSnapshot
      return (ret, hv)
    else return (ret, hv)
  if ret ≠ 1 then return (ret, ∅)
  else
    match ← hmgetLoop hv name reqKeys ∅ with
    | .error code => return (code, ∅)
    | .ok resMap => return (1, resMap)

/-- The value of a field, when there is one. -/
def hget (name key : Bytes) : Command (Int × Option Bytes) := do
  let (ret, hv) ← getHashMetaVal (encodeMetaKey name)
  if ret ≠ 1 then return (ret, none)
  else
    let (ret, val) ← getHashItemValInternal (encodeHashKey name key hv.version)
    return (1, if ret > 0 then some val else none)

def hgetall (name : Bytes) (saveKey saveValue : Bool) : Command (Int × List Bytes) := do
  let (ret, hv, snapshot) ← recordKeyLock name do
    let (ret, hv) ← getHashMetaVal (encodeMetaKey name)
    if ret = 1 then
      let snapshot ← getSnapshot
      return (ret, hv, snapshot)
    else return (ret, hv, ∅)
  if ret ≠ 1 then return (ret, [])
  else
    return (1, (hiterator snapshot name hv.version).flatMap fun entry =>
      (if saveKey then [entry.1] else []) ++ (if saveValue then [entry.2] else []))

end Vcdb
