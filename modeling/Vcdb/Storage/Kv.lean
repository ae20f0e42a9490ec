import Vcdb.Storage.Hash

/-!
# Strings

A string is held in the metadata record of its key.  The commands that change a part of a string
read it, compute the new one and put it back at the version it had.
-/

namespace Vcdb

/-- Metadata of a string that is yet to be created. -/
def KvMetaVal.fresh : KvMetaVal := { type := DataType.kv, del := keyEnabledMask, version := 0 }

/-- Metadata and value of a string: `1` when it is live, `0` and what to create it with when it is
absent or deleted. -/
def getKvMetaVal (metaKey : Bytes) : Command (Int × KvMetaVal) := do
  match ← dbGet metaKey with
  | .notFound => return (0, .fresh)
  | .error => return (storageErr, .fresh)
  | .ok metaVal =>
      match KvMetaVal.decodeMetaVal metaVal with
      | .error code => return (code, .fresh)
      | .ok kv =>
          if kv.del = keyDeleteMask then
            return (0, { kv with
              version := nextVersion kv.version, del := keyEnabledMask, type := DataType.kv })
          else return (1, kv)

/-- Conditions and kinds of expiry a SET may ask for. -/
structure SetFlags where
  nx : Bool := false
  xx : Bool := false
  ex : Bool := false
  px : Bool := false
deriving DecidableEq

/-- Add a SET to the batch.  The first result tells whether the key exists, the second whether it
was set; the outcome of changing its expiry is not looked at. -/
def setGeneric (key : Bytes) (batch : WriteBatch) (val : Bytes) (flags : SetFlags)
    (expireMs : Int64) : Command (Int × Int × WriteBatch) :=
  if (flags.ex ∨ flags.px) ∧ expireMs ≤ 0 then return (invalidExTime, 0, batch)
  else do
    let metaKey := encodeMetaKey key
    let (ret, kv) ← getKvMetaVal metaKey
    if ret < 0 then return (ret, 0, batch)
    else
      let added : Int :=
        if ret = 0 then if flags.xx then 0 else 1
        else if flags.nx then 0 else 1
      let batch := if added = 1 then batch ++ [.put metaKey (encodeKvVal val kv.version)] else batch
      let ret := if added = 1 then 1 else ret
      if flags.ex ∨ flags.px then
        if ret = 1 ∧ added = 1 then
          let now ← timeMs
          let (_, batch) ← expireAt key (expireMs + now) batch false
          return (ret, added, batch)
        else return (ret, added, batch)
      else if added = 1 then
        let (_, batch) ← cancelExpiration key batch
        return (ret, added, batch)
      else return (ret, added, batch)

/-- Whether the command succeeded, and whether the key was set. -/
def setNoLock (key val : Bytes) (flags : SetFlags) (expireMs : Int64) : Command (Int × Int) := do
  let (ret, added, batch) ← setGeneric key [] val flags expireMs
  if ret < 0 then return (ret, added)
  else if ← commitBatch batch then return (if added + ret > 0 then 1 else 0, added)
  else return (storageErr, added)

def Kv.set (key val : Bytes) (flags : SetFlags) (expireMs : Int64) : Command (Int × Int) :=
  recordKeyLock key (setNoLock key val flags expireMs)

/-- Add the pairs of an MSET to the batch, counting distinct keys. -/
def multiSetLoop : List (Bytes × Bytes) → List Bytes → WriteBatch → Int →
    Command (Except Int (Int × WriteBatch))
  | [], _, batch, rval => return .ok (rval, batch)
  | (key, val) :: kvs, seen, batch, rval => do
      let rval := if seen.contains key then rval else rval + 1
      let (ret, _, batch) ← recordKeyLock key (setGeneric key batch val {} 0)
      if ret < 0 then return .error ret
      else multiSetLoop kvs (key :: seen) batch rval

def multiSet (kvs : List (Bytes × Bytes)) : Command Int := do
  match ← multiSetLoop kvs [] [] 0 with
  | .error code => return code
  | .ok (rval, batch) => if ← commitBatch batch then return rval else return storageErr

/-- Add the deletion of several keys to the batch, counting those that existed. -/
def multiDelLoop : List Bytes → WriteBatch → Int → Command (Except Int (Int × WriteBatch))
  | [], batch, num => return .ok (num, batch)
  | key :: keys, batch, num => do
      let (ret, batch) ← delKeyInternal key batch
      if ret < 0 then return .error ret else multiDelLoop keys batch (num + ret)

/-- The keys are sorted and distinct.  The source hands their locks over to an object that never
locks them. -/
def multiDel (distinctKeys : List Bytes) : Command (Except Int Int) := do
  match ← multiDelLoop distinctKeys [] 0 with
  | .error code => return .error code
  | .ok (num, batch) => if ← commitBatch batch then return .ok num else return .error storageErr

def getset (key newval : Bytes) : Command (Except Int (Option Bytes)) :=
  recordKeyLock key do
    let metaKey := encodeMetaKey key
    let (ret, kv) ← getKvMetaVal metaKey
    if ret < 0 then return .error ret
    else
      let metaVal := encodeKvVal newval kv.version
      let batch ←
        if ret = 0 then pure []
        else
          let (_, batch) ← cancelExpiration key []
          pure batch
      if ← commitBatch (batch ++ [.put metaKey metaVal]) then
        return .ok (if ret = 0 then none else some kv.value)
      else return .error storageErr

def Kv.del (key : Bytes) : Command Int :=
  recordKeyLock key do
    let (ret, batch) ← delKeyInternal key []
    if ret ≤ 0 then return ret
    else if ← commitBatch batch then return 1
    else return storageErr

def Kv.get (key : Bytes) : Command (Int × Bytes) := do
  let (ret, kv) ← getKvMetaVal (encodeMetaKey key)
  if ret ≤ 0 then return (ret, []) else return (1, kv.value)

/-- Replace a string by one computed from it; `newVal` is given what was read and whether the key
exists. -/
def updateKvCommon {ν : Type} (key : Bytes)
    (newVal : KvMetaVal → Int → Except Int (Bytes × ν)) : Command (Except Int ν) :=
  recordKeyLock key do
    let metaKey := encodeMetaKey key
    let (ret, kv) ← getKvMetaVal metaKey
    if ret < 0 then return .error ret
    else
      match newVal kv ret with
      | .error code => return .error code
      | .ok (val, result) =>
          if ← commitBatch [.put metaKey (encodeKvVal val kv.version)] then return .ok result
          else return .error storageErr

/-- The same guarded addition as in a hash. -/
def incr (key : Bytes) (by' : Int64) : Command (Except Int Int64) :=
  updateKvCommon key fun kv ret =>
    (incrInteger by' kv.value ret).map fun newVal => (str newVal, newVal)

/-- Arithmetic and text of the extended floating-point type. -/
structure LongDoubleUnit where
  LongDouble : Type
  add : LongDouble → LongDouble → LongDouble
  sub : LongDouble → LongDouble → LongDouble
  lt : LongDouble → LongDouble → Bool
  zero : LongDouble
  /-- Smallest positive normal number. -/
  min : LongDouble
  max : LongDouble
  isNan : LongDouble → Bool
  isInf : LongDouble → Bool
  /-- The number a text stands for, unless `errno` tells that it is not one. -/
  bytesLongDouble : Bytes → Option LongDouble
  str : LongDouble → Bytes

/-- Add to a number held as text. -/
def incrFloat (float : LongDoubleUnit) (lower upper by' : float.LongDouble) (old : Bytes)
    (ret : Int) : Except Int float.LongDouble :=
  if ret = 0 then .ok by'
  else
    match float.bytesLongDouble old with
    | none => .error invalidDbl
    | some oldvalue =>
        if float.lt by' float.zero ∧ float.lt oldvalue float.zero ∧
              float.lt by' (float.sub lower oldvalue) ∨
            float.lt float.zero by' ∧ float.lt float.zero oldvalue ∧
              float.lt (float.sub upper oldvalue) by' then .error dblOverflow
        else
          let newVal := float.add oldvalue by'
          if float.isNan newVal ∨ float.isInf newVal then .error invalidIncrPdcNanOrInf
          else .ok newVal

def incrbyfloat (float : LongDoubleUnit) (key : Bytes) (by' : float.LongDouble) :
    Command (Except Int float.LongDouble) :=
  updateKvCommon key fun kv ret =>
    (incrFloat float float.min float.max by' kv.value ret).map fun newVal =>
      (float.str newVal, newVal)

/-- The limit is that of another type than the numbers have, and both comparisons are made with
it. -/
def hincrbyfloat (float : LongDoubleUnit) (dblMax : float.LongDouble) (name key : Bytes)
    (by' : float.LongDouble) : Command (Except Int float.LongDouble) :=
  hincrCommon name key (incrFloat float dblMax dblMax by') float.str

def Kv.append (key value : Bytes) : Command (Except Int UInt64) :=
  updateKvCommon key fun kv ret =>
    let newStr := if ret = 0 then value else kv.value ++ value
    .ok (newStr, UInt64.ofNat newStr.length)

/-- Set one bit, counted from the most significant one of each byte; the result is the old bit in
its place. -/
def setbit (key : Bytes) (bitoffset : Int64) (on : Int) : Command (Except Int UInt8) :=
  updateKvCommon key fun kv ret =>
    let newStr := if ret = 0 then [] else kv.value
    let len := bitoffset.toInt.toNat / 8
    let bit : UInt8 := 7 - UInt8.ofNat (bitoffset.toInt.toNat % 8)
    let newStr :=
      if newStr.length ≤ len then newStr ++ List.replicate (len + 1 - newStr.length) 0 else newStr
    let old := newStr.getD len 0
    let byte := if on = 1 then old ||| (1 <<< bit) else old &&& ~~~(1 <<< bit)
    .ok (newStr.set len byte, old &&& (1 <<< bit))

def getbit (key : Bytes) (bitoffset : Int64) : Command (Except Int Int) := do
  let (ret, val) ← Kv.get key
  if ret < 0 then return .error ret
  else if ret = 0 then return .ok 0
  else
    let len := bitoffset.toInt.toNat / 8
    let bit : UInt8 := 7 - UInt8.ofNat (bitoffset.toInt.toNat % 8)
    if val.length ≤ len then return .ok 0
    else return .ok (if val.getD len 0 &&& (1 <<< bit) = 0 then 0 else 1)

/-- Length of a byte string as the code sees it. -/
def stringSize (s : Bytes) : UInt64 := UInt64.ofNat s.length

/-- Write a value into a string from a position on, with zeros up to it.  The additions are those
of unsigned 64-bit integers. -/
def spliceRange (val : Bytes) (start : Int64) (value : Bytes) : Bytes :=
  let stop := start.toUInt64 + stringSize value
  let padding := (start.toUInt64 - stringSize val).toInt64
  if padding < 0 then
    let head := val.take start.toInt.toNat ++ value
    if stop < stringSize val then head ++ val.drop stop.toNat else head
  else val ++ List.replicate padding.toInt.toNat 0 ++ value

/-- Longest string a command may build. -/
def stringMax : UInt64 := 512 * 1024 * 1024

/-- The result is the length of the new string. -/
def setrange (key : Bytes) (start : Int64) (value : Bytes) : Command (Except Int UInt64) :=
  recordKeyLock key do
    let metaKey := encodeMetaKey key
    let (ret, kv) ← getKvMetaVal metaKey
    if ret < 0 then return .error ret
    else
      let val := if ret = 0 then [] else kv.value
      -- an empty value is no reason to leave an existing string alone
      if ret = 0 ∧ stringSize value = 0 then return .ok 0
      else if start.toUInt64 + stringSize value > stringMax then return .error stringOvermax
      else
        let val := spliceRange val start value
        if ← commitBatch [.put metaKey (encodeKvVal val kv.version)] then return .ok (stringSize val)
        else return .error storageErr

/-- The bytes between two positions, which count from the end when they are negative. -/
def getrange (key : Bytes) (start stop : Int64) : Command (Except Int Bytes) := do
  let (ret, val) ← Kv.get key
  if ret < 0 then return .error ret
  else if start < 0 ∧ stop < 0 ∧ stop < start then return .ok []
  else
    let strlen := stringSize val
    let start := if start < 0 then (strlen + start.toUInt64).toInt64 else start
    let stop := if stop < 0 then (strlen + stop.toUInt64).toInt64 else stop
    let start := if start < 0 then 0 else start
    let stop := if stop < 0 then 0 else stop
    let stop := if strlen ≤ stop.toUInt64 then (strlen - 1).toInt64 else stop
    if stop < start ∨ strlen = 0 then return .ok []
    else return .ok ((val.drop start.toInt.toNat).take (stop - start + 1).toInt.toNat)

end Vcdb
