import Vcdb.Storage.Expiration

/-!
# Metadata of collections

Hashes, sets and sorted sets keep their version and their number of elements in one metadata
record.  The number is kept by adding the change of every write.
-/

namespace Vcdb

/-- Metadata of a collection of one type: `1` and the stored value when it is live, `0` and the
value to create it with when it is absent or deleted. -/
def getMetaVal (type freshType : UInt8) (metaKey : Bytes) : Command (Int × MetaVal) := do
  let fresh : MetaVal := { type := freshType }
  match ← dbGet metaKey with
  | .notFound => return (0, fresh)
  | .error => return (storageErr, fresh)
  | .ok metaVal =>
      match MetaVal.decodeMetaVal metaVal with
      | .error code => return (code, fresh)
      | .ok mv =>
          if mv.del = keyDeleteMask then
            return (0, { mv with version := nextVersion mv.version, length := 0, del := keyEnabledMask })
          else if mv.type ≠ type then return (wrongTypeErr, mv)
          else return (1, mv)

/-- Change the number of elements; a collection that becomes empty is marked deleted. -/
def incrSize (type : UInt8) (name : Bytes) (batch : WriteBatch) (sizeKey : Bytes) (mv : MetaVal)
    (incr : Int) : Command (Int × WriteBatch) :=
  if mv.length = 0 then
    if incr > 0 then
      let metaVal := encodeMetaValInternal type (uint64 incr) mv.version keyEnabledMask
      return (1, batch ++ [.put sizeKey metaVal])
    else if incr = 0 then return (0, batch)
    else return (invalidIncrLen, batch)
  else if incr = 0 then return (1, batch)
  else if incr < 0 ∧ mv.length < uint64 (-incr) then return (invalidIncrLen, batch)
  else
    -- The sum is not checked for overflow.
    let len := if incr > 0 then mv.length + uint64 incr else mv.length - uint64 (-incr)
    if len = 0 then do
      let delKey := encodeDeleteKey name mv.version
      let metaVal := encodeMetaValInternal type mv.length mv.version keyDeleteMask
      let (_, batch) ← cancelExpiration name (batch ++ [.put delKey [], .put sizeKey metaVal])
      return (0, batch)
    else
      let metaVal := encodeMetaValInternal type len mv.version keyEnabledMask
      return (1, batch ++ [.put sizeKey metaVal])

/-- Commit a batch whose length change succeeded; `0` when the collection has become empty. -/
def commitSize (incr : Command (Int × WriteBatch)) : Command Int := do
  let (iret, batch) ← incr
  if iret < 0 then return iret
  else if ← commitBatch batch then return if iret = 0 then 0 else 1
  else return storageErr

end Vcdb
