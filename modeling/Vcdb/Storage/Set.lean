import Vcdb.Storage.Metadata
import Vcdb.Storage.Iterator

/-!
# Sets

The members of a set are items with an empty value under its key and version; the metadata holds
their number, kept by adding the change of every write.
-/

namespace Vcdb

/-- An absent set is given the type byte of a hash; every write encodes its own. -/
def getSetMetaVal (metaKey : Bytes) : Command (Int × MetaVal) :=
  getMetaVal DataType.ssize DataType.hsize metaKey

def getSetItemValInternal (itemKey : Bytes) : Command Int := do
  match ← dbGet itemKey with
  | .notFound => return 0
  | .error => return storageErr
  | .ok _ => return 1

def incrSsize (key : Bytes) (batch : WriteBatch) (metaKey : Bytes) (sv : MetaVal) (incr : Int) :
    Command (Int × WriteBatch) :=
  incrSize DataType.ssize key batch metaKey sv incr

def commitSet (key : Bytes) (batch : WriteBatch) (metaKey : Bytes) (sv : MetaVal) (incr : Int) :
    Command Int :=
  commitSize (incrSsize key batch metaKey sv incr)

/-- Add the members that are not stored yet, counting them; no member of a set about to be created
is looked up. -/
def saddLoop (sv : MetaVal) (existing : Bool) (key : Bytes) :
    List Bytes → WriteBatch → Int → Command (Except Int (Int × WriteBatch))
  | [], batch, num => return .ok (num, batch)
  | member :: members, batch, num => do
      let itemKey := encodeSetKey key member sv.version
      if existing then
        let s ← getSetItemValInternal itemKey
        if s < 0 then return .error s
        else if s = 1 then saddLoop sv existing key members batch num
        else saddLoop sv existing key members (batch ++ [.put itemKey []]) (num + 1)
      else saddLoop sv existing key members (batch ++ [.put itemKey []]) (num + 1)

def saddNoLock (key : Bytes) (memSet : SortedMap Bytes Unit) : Command (Int × Int) := do
  let metaKey := encodeMetaKey key
  let (ret, sv) ← getSetMetaVal metaKey
  if ret < 0 then return (ret, 0)
  else
    match ← saddLoop sv (ret ≠ 0) key memSet.keys [] 0 with
    | .error code => return (code, 0)
    | .ok (num, batch) =>
        let ret ← commitSet key batch metaKey sv num
        return (ret, num)

def sadd (key : Bytes) (memSet : SortedMap Bytes Unit) : Command (Int × Int) :=
  recordKeyLock key (saddNoLock key memSet)

/-- Delete the members that are stored.  A member given twice is looked up twice in the same
store, and counted twice. -/
def sremLoop (sv : MetaVal) (key : Bytes) :
    List Bytes → WriteBatch → Int → Command (Except Int (Int × WriteBatch))
  | [], batch, num => return .ok (num, batch)
  | member :: members, batch, num => do
      let hkey := encodeSetKey key member sv.version
      let s ← getSetItemValInternal hkey
      if s = 1 then sremLoop sv key members (batch ++ [.delete hkey]) (num + 1)
      else if s < 0 then return .error s
      else sremLoop sv key members batch num

def srem (key : Bytes) (members : List Bytes) : Command (Int × Int) :=
  recordKeyLock key do
    let metaKey := encodeMetaKey key
    let (ret, sv) ← getSetMetaVal metaKey
    if ret ≠ 1 then return (ret, 0)
    else
      match ← sremLoop sv key members [] 0 with
      | .error code => return (code, 0)
      | .ok (num, batch) =>
          let ret ← commitSet key batch metaKey sv (-num)
          return (ret, num)

def scard (key : Bytes) : Command (Int × UInt64) := do
  let (ret, sv) ← getSetMetaVal (encodeMetaKey key)
  if ret < 0 then return (ret, 0) else return (ret, sv.length)

def sismember (key member : Bytes) : Command (Int × Bool) := do
  let (ret, sv) ← getSetMetaVal (encodeMetaKey key)
  if ret < 0 then return (ret, false)
  else if ret = 1 then
    let ret ← getSetItemValInternal (encodeSetKey key member sv.version)
    if ret < 0 then return (ret, false) else return (1, ret ≠ 0)
  else return (1, false)

/-- Largest `int`. -/
def intMax : Int64 := 0x7FFFFFFF

/-- Where a sample of `cnt` out of `length` members starts, and how many it has. -/
def sampleWindow (length : UInt64) (cnt : Int64) : Command (Except Int (Nat × Nat)) :=
  if length ≤ cnt.toUInt64 then return .ok (0, length.toNat)
  else if intMax < cnt then return .error invalidInt
  else do
    let startIndexMax := length - cnt.toUInt64 + 1
    let startIndexMax := if 100 < startIndexMax then 100 else startIndexMax
    return .ok ((← rand) % startIndexMax.toNat, cnt.toUInt64.toNat)

/-- Remove up to `popcnt` members that follow each other in the store. -/
def spop (key : Bytes) (popcnt : Int64) : Command (Int × List Bytes) :=
  recordKeyLock key do
    let metaKey := encodeMetaKey key
    let (ret, sv) ← getSetMetaVal metaKey
    if ret ≠ 1 then return (ret, [])
    else
      let db ← getSnapshot
      if popcnt < 0 then return (indexOutOfRange, [])
      else if sv.length = 0 then return (0, [])
      else
        match ← sampleWindow sv.length popcnt with
        | .error code => return (code, [])
        | .ok (startIndex, popcnt) =>
            let members := ((siterator db key sv.version).drop startIndex).take popcnt
            let batch := members.map fun member => .delete (encodeSetKey key member sv.version)
            let ret ← commitSet key batch metaKey sv (-members.length)
            return (ret, members)

def smembers (key : Bytes) : Command (Int × List Bytes) := do
  let (ret, sv, snapshot) ← recordKeyLock key do
    let (ret, sv) ← getSetMetaVal (encodeMetaKey key)
    if ret = 1 then
      let snapshot ← getSnapshot
      return (ret, sv, snapshot)
    else return (ret, sv, ∅)
  if ret ≠ 1 then return (ret, [])
  else return (1, siterator snapshot key sv.version)

end Vcdb
