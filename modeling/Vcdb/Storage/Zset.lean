import Vcdb.Storage.Metadata
import Vcdb.Storage.Iterator

/-!
# Sorted sets

A member's score is its item; a second record per member, named by score and member, keeps the
members in score order.  The metadata holds their number, kept by adding the change of every write.
-/

namespace Vcdb

namespace Double

def isNan (d : Double) : Bool := 0x7FF0000000000000 < d &&& 0x7FFFFFFFFFFFFFFF

/-- The two zeros have no other bits than their sign. -/
def isZero (d : Double) : Bool := d &&& 0x7FFFFFFFFFFFFFFF = 0

/-- Numerically equal. -/
def eq (left right : Double) : Bool :=
  !left.isNan && !right.isNan && (left = right || left.isZero && right.isZero)

/-- Numerically smaller. -/
def lt (left right : Double) : Bool :=
  !left.isNan && !right.isNan && !(left.isZero && right.isZero) &&
    encodeScore left < encodeScore right

def le (left right : Double) : Bool := lt left right || eq left right

def isInf (d : Double) : Bool := d &&& 0x7FFFFFFFFFFFFFFF = 0x7FF0000000000000

end Double

/-- Floating-point arithmetic and text. -/
structure FloatUnit where
  add : Double → Double → Double
  sub : Double → Double → Double
  /-- The double a text stands for, unless `errno` tells that it is not one. -/
  bytesDouble : Bytes → Option Double
  /-- Decimal text of a double. -/
  str : Double → Bytes
  /-- The longest number a text starts with, and what follows it. -/
  strtod : Bytes → Double × Bytes

/-- Options of ZADD; the response flags of the source are results here. -/
structure ZaddFlags where
  nx : Bool := false
  xx : Bool := false
  ch : Bool := false
  incr : Bool := false
deriving DecidableEq

/-- What was done to one member. -/
inductive ZaddResult
  | nop
  | added
  | updated
  /-- The member had the score already. -/
  | same
deriving DecidableEq

def getZsetMetaVal (metaKey : Bytes) : Command (Int × MetaVal) :=
  getMetaVal DataType.zsize DataType.zsize metaKey

/-- The score stored under an item key. -/
def getZsetItemVal (itemKey : Bytes) : Command (Int × Double) := do
  match ← dbGet itemKey with
  | .notFound => return (0, 0)
  | .error => return (storageErr, 0)
  | .ok strScore => return (1, readHostOrder64 strScore)

def incrZsize (name : Bytes) (batch : WriteBatch) (zv : MetaVal) (incr : Int) :
    Command (Int × WriteBatch) :=
  incrSize DataType.zsize name batch (encodeMetaKey name) zv incr

def commitZset (name : Bytes) (batch : WriteBatch) (zv : MetaVal) (incr : Int) : Command Int :=
  commitSize (incrZsize name batch zv incr)

/-- The records of a member with a score. -/
def zputs (name key : Bytes) (score : Double) (version : UInt16) : WriteBatch :=
  [.put (encodeZsetKey name key version) (hostOrder64 score),
    .put (encodeZscoreKey name key score version) []]

/-- Delete a member that is stored. -/
def zdelOne (batch : WriteBatch) (name key : Bytes) (version : UInt16) :
    Command (Int × WriteBatch) := do
  let (ret, oldScore) ← getZsetItemVal (encodeZsetKey name key version)
  if ret ≤ 0 then return (ret, batch)
  else
    return (1, batch ++ [.delete (encodeZscoreKey name key oldScore version),
      .delete (encodeZsetKey name key version)])

/-- Set, keep or increment the score of one member; the last result is the score written to the
caller's variable. -/
def zsetOne (float : FloatUnit) (batch : WriteBatch) (needCheck : Bool) (name key : Bytes)
    (score : Double) (curVersion : UInt16) (flags : ZaddFlags) :
    Command (Except Int (ZaddResult × WriteBatch × Option Double)) := do
  if score.isNan then return .error nanScore
  else
    let insert : Except Int (ZaddResult × WriteBatch × Option Double) :=
      if flags.xx then .ok (.nop, batch, none)
      else .ok (.added, batch ++ zputs name key score curVersion, some score)
    if needCheck then
      let (found, oldScore) ← getZsetItemVal (encodeZsetKey name key curVersion)
      if found < 0 then return .error found
      else if found = 0 then return insert
      else if flags.nx then return .ok (.nop, batch, none)
      else
        let score := if flags.incr then float.add score oldScore else score
        if flags.incr ∧ score.isNan then return .error nanScore
        else if oldScore.eq score then
          return .ok (.same, batch, if flags.incr then some score else none)
        else
          return .ok (.updated,
            batch ++ .delete (encodeZscoreKey name key oldScore curVersion) ::
              zputs name key score curVersion, some score)
    else return insert

/-- Set several members, counting the added and the updated ones. -/
def zsetLoop (float : FloatUnit) (needCheck : Bool) (name : Bytes) (version : UInt16)
    (flags : ZaddFlags) :
    List (Bytes × Bytes) → WriteBatch → Int → Int → Command (Except Int (Int × Int × WriteBatch))
  | [], batch, added, updated => return .ok (added, updated, batch)
  | (key, val) :: members, batch, added, updated =>
      match float.bytesDouble val with
      | none => return .error invalidDbl
      | some score => do
          match ← zsetOne float batch needCheck name key score version flags with
          | .error code => return .error code
          | .ok (result, batch, _) =>
              zsetLoop float needCheck name version flags members batch
                (if result = .added then added + 1 else added)
                (if result = .updated then updated + 1 else updated)

def zsetNoLock (float : FloatUnit) (name : Bytes) (sortedSet : SortedMap Bytes Bytes)
    (flags : ZaddFlags) : Command (Int × Int) := do
  if flags.nx ∧ flags.xx then return (syntaxErr, 0)
  else if flags.incr ∧ sortedSet.size > 1 then return (syntaxErr, 0)
  else
    let (ret, zv) ← getZsetMetaVal (encodeMetaKey name)
    if ret < 0 then return (ret, 0)
    else
      match ← zsetLoop float (ret ≠ 0) name zv.version flags sortedSet.entries [] 0 0 with
      | .error code => return (code, 0)
      | .ok (added, updated, batch) =>
          let iret ← commitZset name batch zv added
          if iret < 0 then return (iret, 0)
          else
            let num := if flags.ch then added + updated else added
            return (if ret + num > 0 then 1 else 0, num)

def multiZset (float : FloatUnit) (name : Bytes) (sortedSet : SortedMap Bytes Bytes)
    (flags : ZaddFlags) : Command (Int × Int) :=
  recordKeyLock name (zsetNoLock float name sortedSet flags)

def zdelLoop (name : Bytes) (version : UInt16) :
    List Bytes → WriteBatch → Int → Command (Except Int (Int × WriteBatch))
  | [], batch, count => return .ok (count, batch)
  | key :: keys, batch, count => do
      let (ret, batch) ← zdelOne batch name key version
      if ret < 0 then return .error ret
      else zdelLoop name version keys batch (count + ret)

def zdelNoLock (name : Bytes) (keys : SortedMap Bytes Unit) : Command (Int × Int) := do
  let (ret, zv) ← getZsetMetaVal (encodeMetaKey name)
  if ret ≤ 0 then return (ret, 0)
  else
    match ← zdelLoop name zv.version keys.keys [] 0 with
    | .error code => return (code, 0)
    | .ok (count, batch) =>
        let ret ← commitZset name batch zv (-count)
        return (ret, count)

def multiZdel (name : Bytes) (keys : SortedMap Bytes Unit) : Command (Int × Int) :=
  recordKeyLock name (zdelNoLock name keys)

/-- Add to the score of one member; the new score, when there is one. -/
def zincr (float : FloatUnit) (name key : Bytes) (by' : Double) (flags : ZaddFlags) :
    Command (Except Int (ZaddResult × Option Double)) :=
  recordKeyLock name do
    let (ret, zv) ← getZsetMetaVal (encodeMetaKey name)
    if ret < 0 then return .error ret
    else
      match ← zsetOne float [] (ret ≠ 0) name key by' zv.version flags with
      | .error code => return .error code
      | .ok (result, batch, newVal) =>
          if result = .added then
            let iret ← commitZset name batch zv 1
            if iret < 0 then return .error iret else return .ok (result, newVal)
          else if ← commitBatch batch then return .ok (result, newVal)
          else return .error storageErr

def zsize (name : Bytes) : Command (Int × UInt64) := do
  let (ret, zv) ← getZsetMetaVal (encodeMetaKey name)
  if ret ≤ 0 then return (ret, 0) else return (1, zv.length)

def zget (name key : Bytes) : Command (Int × Double) := do
  let (ret, zv) ← getZsetMetaVal (encodeMetaKey name)
  if ret ≠ 1 then return (ret, 0)
  else getZsetItemVal (encodeZsetKey name key zv.version)

end Vcdb
