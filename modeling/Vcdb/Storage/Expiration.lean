import Vcdb.Storage.Engine

/-!
# Expiry and deletion marks

A key's expiry is stored twice, under the key and in an index ordered by time; the nearest ones
are also kept in memory.  Deleting a key only marks its metadata and leaves a delete key for the
background worker.
-/

namespace Vcdb

/-- Sixty-four bits in the byte order of the host. -/
def hostOrder64 (n : UInt64) : Bytes := (be64 n).reverse

def readHostOrder64 (data : Bytes) : UInt64 :=
  UInt64.ofNat (Endian.ofBigEndian (data.take 8).reverse)

@[simp]
theorem readHostOrder64_hostOrder64 (n : UInt64) : readHostOrder64 (hostOrder64 n) = n := by
  have eight : (hostOrder64 n).take 8 = hostOrder64 n :=
    List.take_of_length_le (by simp [hostOrder64])
  have roundTrip : Endian.ofBigEndian (be64 n) = n.toNat :=
    Endian.ofBigEndian_bigEndian n.toNat_lt
  rw [readHostOrder64, eight, hostOrder64, List.reverse_reverse, roundTrip, UInt64.ofNat_toNat]

theorem hostOrder64_injective : Function.Injective hostOrder64 :=
  Function.LeftInverse.injective readHostOrder64_hostOrder64

/-- Position of the deletion flag in a metadata value. -/
def posDel : Nat := 3

/-- Read the stored expiry of a key. -/
def eget (key : Bytes) : Command (Int × Int64) := do
  match ← dbGet (encodeEsetKey key) with
  | .notFound => return (0, 0)
  | .error => return (-1, 0)
  | .ok strScore => return (1, (readHostOrder64 strScore).toInt64)

def edelOne (key : Bytes) (batch : WriteBatch) : Command (Int × WriteBatch) := do
  let (found, oldTs) ← eget key
  if found = -1 then return (-1, batch)
  else if found = 0 then return (0, batch)
  else
    let oldScoreKey := encodeEscoreKey key oldTs.toUInt64
    let oldEsetKey := encodeEsetKey key
    return (1, batch ++ [.delete oldScoreKey, .delete oldEsetKey])

def esetOne (key : Bytes) (batch : WriteBatch) (tsMs : Int64) : Command (Int × WriteBatch) := do
  let (found, oldTs) ← eget key
  if found = -1 then return (-1, batch)
  else
    let batch :=
      if found = 1 ∧ oldTs ≠ tsMs then batch ++ [.delete (encodeEscoreKey key oldTs.toUInt64)]
      else batch
    return (1, batch ++ [.put (encodeEsetKey key) (hostOrder64 tsMs.toUInt64),
      .put (encodeEscoreKey key tsMs.toUInt64) []])

/-- Whether a key is live, whatever its type. -/
def checkMetaKey (key : Bytes) : Command Int := do
  match ← dbGet (encodeMetaKey key) with
  | .notFound => return 0
  | .error => return -1
  | .ok metaVal =>
      match metaVal[posDel]? with
      | none => return -1
      | some del => return if del = keyDeleteMask then 0 else 1

/-- Forget the expiry of a key. -/
def cancelExpiration (key : Bytes) (batch : WriteBatch) : Command (Int × WriteBatch) := do
  delFastKey key
  edelOne key batch

/-- Flip the deletion flag of a live key and leave a delete key with its version. -/
def markKeyDeleted (key : Bytes) (batch : WriteBatch) (metaKey metaVal : Bytes) :
    Command (Int × WriteBatch) := do
  match decodeMetaHeader metaVal with
  | none => return (mkeyDecodecErr, batch)
  | some (header, _) =>
      if header.del = keyEnabledMask then
        let metaVal := metaVal.set posDel keyDeleteMask
        let delKey := encodeDeleteKey key header.version
        let (_, batch) ← cancelExpiration key (batch ++ [.put metaKey metaVal, .put delKey []])
        return (1, batch)
      else return (0, batch)

def delKeyInternal (key : Bytes) (batch : WriteBatch) : Command (Int × WriteBatch) := do
  let metaKey := encodeMetaKey key
  match ← dbGet metaKey with
  | .notFound => return (0, batch)
  | .error => return (storageErr, batch)
  | .ok metaVal =>
      if 4 ≤ metaVal.length then markKeyDeleted key batch metaKey metaVal
      else return (mkeyDecodecErr, batch)

inductive TimeUnit
  | second
  | millisecond
deriving DecidableEq

/-- Largest 64-bit time. -/
def int64Max : Int64 := 0x7FFFFFFFFFFFFFFF

def convert2ms (ttl : Int64) : TimeUnit → Except Int Int64
  | .second => if int64Max / 1000 ≤ ttl then .error invalidExTime else .ok (ttl * 1000)
  | .millisecond => if int64Max ≤ ttl then .error invalidExTime else .ok ttl

/-- The body of `expireAt` after its optional lock; only the locked variant looks at the key and
commits. -/
def expireAtInternal (key : Bytes) (pexpireatMs : Int64) (batch : WriteBatch) (lock : Bool) :
    Command (Int × WriteBatch) := do
  let now ← timeMs
  if pexpireatMs ≤ now then
    let (ret, batch) ← delKeyInternal key batch
    if lock ∧ ret ≥ 0 then
      if ← commitBatch batch then return (2, batch) else return (storageErr, batch)
    else return (2, batch)
  else
    let live ← if lock then checkMetaKey key else pure 1
    if live ≤ 0 then return (live, batch)
    else
      let (ret, batch) ← esetOne key batch pexpireatMs
      if ret ≤ 0 then return (ret, batch)
      else
        insertFastKey key pexpireatMs
        if lock ∧ ret ≥ 0 then
          if ← commitBatch batch then return (2, batch) else return (storageErr, batch)
        else return (2, batch)

def expireAt (key : Bytes) (pexpireatMs : Int64) (batch : WriteBatch) (lock : Bool := true) :
    Command (Int × WriteBatch) :=
  if lock then recordKeyLock key (expireAtInternal key pexpireatMs batch lock)
  else expireAtInternal key pexpireatMs batch lock

def expire (key : Bytes) (ttl : Int64) (unit : TimeUnit) : Command Int :=
  match convert2ms ttl unit with
  | .error code => return code
  | .ok ttl => do
      let now ← timeMs
      let (ret, _) ← expireAt key (now + ttl) []
      return ret

/-- Drop the expiry of a key; skipped while no expiry is known at all. -/
def persist (key : Bytes) : Command Int := do
  if (← firstTimeout) = int64Max then return 0
  else
    recordKeyLock key do
      let (ret, batch) ← cancelExpiration key []
      if ret ≥ 0 then
        if ← commitBatch batch then return ret else return -1
      else return ret

def pttl (key : Bytes) (unit : TimeUnit) : Command Int := do
  let ret ← checkMetaKey key
  if ret ≤ 0 then return -2
  else
    let (ret, ex) ← eget key
    if ret = 1 then
      let now ← timeMs
      let ttl := ex - now
      if ttl < 0 then return -2
      else
        match unit with
        | .second => return ((ttl + 500) / 1000).toInt
        | .millisecond => return ttl.toInt
    else return -1

end Vcdb
