import Vcdb.Storage.Expiration

/-!
# Lists

The cells of a list are items named by sequence numbers; the metadata holds the first and the last
number and the length.  The window of numbers may wrap from 2^64 - 1 to 0.
-/

namespace Vcdb

/-- Largest 64-bit unsigned integer. -/
def uint64Max : UInt64 := 0xFFFFFFFFFFFFFFFF

/-- Metadata of a list, or the metadata to create it with; as for the other collections. -/
def getListMetaVal (metaKey : Bytes) : Command (Int × ListMetaVal) := do
  let fresh : ListMetaVal := { type := DataType.lsize }
  match ← dbGet metaKey with
  | .notFound => return (0, fresh)
  | .error => return (storageErr, fresh)
  | .ok metaVal =>
      match ListMetaVal.decodeMetaVal metaVal with
      | .error code => return (code, fresh)
      | .ok lv =>
          if lv.del = keyDeleteMask then
            return (0, { lv with
              version := nextVersion lv.version, leftSeq := 0, rightSeq := uint64Max, length := 0,
              del := keyEnabledMask })
          else if lv.type ≠ DataType.lsize then return (wrongTypeErr, lv)
          else return (1, lv)

def listItemVal : ReadStatus → Int × Bytes
  | .notFound => (0, [])
  | .error => (-1, [])
  | .ok val => (1, val)

def getListItemValInternal (itemKey : Bytes) : Command (Int × Bytes) := do
  return listItemVal (← dbGet itemKey)

def encodeValueListMeta (lv : ListMetaVal) : Bytes :=
  encodeListMetaVal lv.length lv.leftSeq lv.rightSeq lv.version lv.del

/-- Sequence number of an index; negative indices count from the right. -/
def getSeqByIndex (index : Int64) (lv : ListMetaVal) : UInt64 :=
  if lv.leftSeq > lv.rightSeq then
    if 0 ≤ index then
      let u64 := index.toUInt64
      if uint64Max - lv.leftSeq ≥ u64 then lv.leftSeq + u64
      else u64 + lv.leftSeq - uint64Max - 1
    else
      let u64 := (-index - 1).toUInt64
      if lv.rightSeq ≥ u64 then lv.rightSeq - u64
      else uint64Max - u64 + lv.rightSeq + 1
  else if 0 ≤ index then lv.leftSeq + index.toUInt64
  else lv.rightSeq - (-index - 1).toUInt64

/-- An end of a list. -/
inductive ListPosition
  | head
  | tail
deriving DecidableEq

/-- The sequence number before, modulo 2^64. -/
def seqBefore (seq : UInt64) : UInt64 := if seq = 0 then uint64Max else seq - 1

/-- The sequence number after, modulo 2^64. -/
def seqAfter (seq : UInt64) : UInt64 := if seq = uint64Max then 0 else seq + 1

/-- The value at an index, when there is one. -/
def lIndex (key : Bytes) (index : Int64) : Command (Int × Option Bytes) := do
  let (ret, lv) ← getListMetaVal (encodeMetaKey key)
  if ret = 1 then
    let seq := getSeqByIndex index lv
    let (ret, val) ← getListItemValInternal (encodeListKey key seq lv.version)
    return (ret, if ret > 0 then some val else none)
  else return (ret, none)

def lLen (key : Bytes) : Command (Int × UInt64) := do
  let (ret, lv) ← getListMetaVal (encodeMetaKey key)
  return (ret, if ret = 1 then lv.length else 0)

/-- Mark a list deleted in a batch. -/
def deleteList (key metaKey : Bytes) (length : UInt64) (version : UInt16) (batch : WriteBatch) :
    Command WriteBatch := do
  let delKey := encodeDeleteKey key version
  let sizeVal := encodeListMetaVal length 0 0 version keyDeleteMask
  let (_, batch) ← cancelExpiration key (batch ++ [.put metaKey sizeVal, .put delKey []])
  return batch

def doListPop (key metaKey : Bytes) (lv : ListMetaVal) (lp : ListPosition) :
    Command (Int × Option Bytes) := do
  let itemSeq :=
    match lp with
    | .head => lv.leftSeq
    | .tail => lv.rightSeq
  let lastItemKey := encodeListKey key itemSeq lv.version
  let (ret, val) ← getListItemValInternal lastItemKey
  if ret = 1 then
    let len := lv.length - 1
    let popped : ListMetaVal :=
      match lp with
      | .head => { lv with leftSeq := seqAfter itemSeq }
      | .tail => { lv with rightSeq := seqBefore itemSeq }
    if len = 0 then
      let batch ← deleteList key metaKey lv.length lv.version [.delete lastItemKey]
      if ← commitBatch batch then return (0, some val) else return (storageErr, some val)
    else
      let newMetaVal := encodeValueListMeta { popped with length := len }
      if ← commitBatch [.put metaKey newMetaVal, .delete lastItemKey] then return (1, some val)
      else return (storageErr, some val)
  else return (ret, none)

def listPop (key : Bytes) (lp : ListPosition) : Command (Int × Option Bytes) :=
  recordKeyLock key do
    let metaKey := encodeMetaKey key
    let (ret, lv) ← getListMetaVal metaKey
    if ret ≠ 1 then return (ret, none)
    else if lv.length = 0 then return (0, none)
    else doListPop key metaKey lv lp

def lPop (key : Bytes) : Command (Int × Option Bytes) := listPop key .head

def rPop (key : Bytes) : Command (Int × Option Bytes) := listPop key .tail

/-- Put values outward from one end of the window. -/
def pushLoop (key : Bytes) (version : UInt16) (lp : ListPosition) :
    List Bytes → UInt64 → WriteBatch → UInt64 × WriteBatch
  | [], itemSeq, batch => (itemSeq, batch)
  | val :: vals, itemSeq, batch =>
      let itemSeq :=
        match lp with
        | .head => seqBefore itemSeq
        | .tail => seqAfter itemSeq
      pushLoop key version lp vals itemSeq (batch ++ [.put (encodeListKey key itemSeq version) val])

/-- The result carries the metadata as the push leaves it. -/
def doListPush (key : Bytes) (vals : List Bytes) (metaKey : Bytes) (lv : ListMetaVal)
    (lp : ListPosition) : Command (Int × ListMetaVal) :=
  if vals = [] then return (-1, lv)
  else if lv.length > uint64Max - UInt64.ofNat vals.length then return (-1, lv)
  else do
    let len := lv.length + UInt64.ofNat vals.length
    let start :=
      match lp with
      | .head => lv.leftSeq
      | .tail => lv.rightSeq
    let (itemSeq, batch) := pushLoop key lv.version lp vals start []
    let pushed : ListMetaVal :=
      match lp with
      | .head => { lv with length := len, leftSeq := itemSeq }
      | .tail => { lv with length := len, rightSeq := itemSeq }
    if ← commitBatch (batch ++ [.put metaKey (encodeValueListMeta pushed)]) then return (1, pushed)
    else return (storageErr, pushed)

/-- The variants named with an `x` do not create a list. -/
def listPush (key : Bytes) (vals : List Bytes) (lp : ListPosition) (create : Bool) :
    Command (Int × UInt64) :=
  recordKeyLock key do
    let metaKey := encodeMetaKey key
    let (ret, lv) ← getListMetaVal metaKey
    if ret < 0 then return (ret, 0)
    else if !create ∧ ret = 0 then return (0, 0)
    else
      let (ret, lv) ← doListPush key vals metaKey lv lp
      return (ret, lv.length)

def lPush (key : Bytes) (vals : List Bytes) : Command (Int × UInt64) := listPush key vals .head true

def lPushX (key : Bytes) (vals : List Bytes) : Command (Int × UInt64) := listPush key vals .head false

def rPush (key : Bytes) (vals : List Bytes) : Command (Int × UInt64) := listPush key vals .tail true

def rPushX (key : Bytes) (vals : List Bytes) : Command (Int × UInt64) := listPush key vals .tail false

/-- Smallest 64-bit time or index. -/
def int64Min : Int64 := -0x8000000000000000

def lSet (key : Bytes) (index : Int64) (val : Bytes) : Command Int :=
  recordKeyLock key do
    let (ret, lv) ← getListMetaVal (encodeMetaKey key)
    if ret ≠ 1 then return ret
    else
      let (maxNegativeIndex, maxIndex) :=
        if lv.length < uint64Max / 2 then ((-lv.length).toInt64, (lv.length - 1).toInt64)
        else (int64Min, int64Max)
      if index > maxIndex ∨ index < maxNegativeIndex then return indexOutOfRange
      else
        let seq := getSeqByIndex index lv
        if ← commitBatch [.put (encodeListKey key seq lv.version) val] then return 1
        else return storageErr

/-- Delete a number of cells inward from one end of the window. -/
def trimLoop (key : Bytes) (version : UInt16) (lp : ListPosition) :
    Nat → UInt64 → WriteBatch → UInt64 × WriteBatch
  | 0, itemSeq, batch => (itemSeq, batch)
  | n + 1, itemSeq, batch =>
      let next :=
        match lp with
        | .head => seqAfter itemSeq
        | .tail => seqBefore itemSeq
      trimLoop key version lp n next (batch ++ [.delete (encodeListKey key itemSeq version)])

/-- Bounds counted from the left, the lower one not below zero. -/
def rangeBounds (llen start stop : Int64) : Int64 × Int64 :=
  let start := if start < 0 then llen + start else start
  let stop := if stop < 0 then llen + stop else stop
  (if start < 0 then 0 else start, stop)

def ltrim (key : Bytes) (start stop : Int64) : Command Int :=
  recordKeyLock key do
    let metaKey := encodeMetaKey key
    let (ret, lv) ← getListMetaVal metaKey
    if ret ≠ 1 then return ret
    else
      let llen := lv.length.toInt64
      let (start, stop) := rangeBounds llen start stop
      let (ltrim, rtrim) :=
        if start > stop ∨ start ≥ llen then (lv.length, 0)
        else
          let stop := if stop ≥ llen then llen - 1 else stop
          (getSeqByIndex start lv - lv.leftSeq, lv.rightSeq - getSeqByIndex stop lv)
      let (leftSeq, batch) := trimLoop key lv.version .head ltrim.toNat lv.leftSeq []
      let (rightSeq, batch) := trimLoop key lv.version .tail rtrim.toNat lv.rightSeq batch
      let trimmed := { lv with leftSeq, rightSeq, length := lv.length - (ltrim + rtrim) }
      if trimmed.length = 0 then
        let batch ← deleteList key metaKey trimmed.length lv.version batch
        if ← commitBatch batch then return 0 else return storageErr
      else if ← commitBatch (batch ++ [.put metaKey (encodeValueListMeta trimmed)]) then return 1
      else return storageErr

/-- Read consecutive cells; a missing one is an error. -/
def rangeLoop (snapshot : DB) (key : Bytes) (version : UInt16) :
    Nat → UInt64 → List Bytes → Command (Except Int (List Bytes))
  | 0, _, list => return .ok list
  | n + 1, curSeq, list => do
      let (ret, val) := listItemVal (← snapshotGet snapshot (encodeListKey key curSeq version))
      if ret ≠ 1 then return .error (-1)
      else rangeLoop snapshot key version n (seqAfter curSeq) (list ++ [val])

def lrange (key : Bytes) (start stop : Int64) : Command (Int × List Bytes) := do
  let (ret, lv, snapshot) ← recordKeyLock key do
    let (ret, lv) ← getListMetaVal (encodeMetaKey key)
    if ret = 1 then
      let snapshot ← getSnapshot
      return (ret, lv, snapshot)
    else return (ret, lv, ∅)
  if ret ≠ 1 then return (ret, [])
  else
    let llen := lv.length.toInt64
    let (start, stop) := rangeBounds llen start stop
    if start > stop ∨ start ≥ llen then return (1, [])
    else
      let stop := if stop ≥ llen then llen - 1 else stop
      let rangelen := stop - start + 1
      match ← rangeLoop snapshot key lv.version rangelen.toInt.toNat (getSeqByIndex start lv) [] with
      | .error code => return (code, [])
      | .ok list => return (1, list)

end Vcdb
