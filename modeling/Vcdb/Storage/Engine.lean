import Vcdb.Codec.RecordKey
import Vcdb.Lib.Program

/-!
# The engine under the commands

Commands see the store through point reads, iterators and atomic write batches.  Beside the store
they share the expiration handler's in-memory copy of the nearest expiries, the cursor table, a
clock and a random source.
-/

namespace Vcdb

/-- An ordered key-value store. -/
abbrev DB := SortedMap Bytes Bytes

inductive BatchOp
  | put (key val : Bytes)
  | delete (key : Bytes)
deriving DecidableEq

/-- Updates in the order they were added. -/
abbrev WriteBatch := List BatchOp

def BatchOp.apply (db : DB) : BatchOp → DB
  | put key val => db.put key val
  | delete key => db.erase key

/-- An atomic, in-order write. -/
def WriteBatch.apply (batch : WriteBatch) (db : DB) : DB := batch.foldl BatchOp.apply db

/-- Outcome of a point read. -/
inductive ReadStatus
  | ok (val : Bytes)
  | notFound
  | error
deriving DecidableEq

def ReadStatus.ofOption : Option Bytes → ReadStatus
  | some val => ok val
  | none => notFound

/-- Keys with a score each, at most one per key. -/
abbrev SortedSet := SortedMap Bytes Int64

namespace SortedSet

/-- Items are ordered by score and then by key. -/
def itemLt (left right : Bytes × Int64) : Bool :=
  left.2 < right.2 ∨ left.2 = right.2 ∧ left.1 < right.1

def front (set : SortedSet) : Option (Bytes × Int64) :=
  set.entries.foldl
    (fun best item =>
      match best with
      | none => some item
      | some found => if itemLt item found then some item else some found)
    none

def back (set : SortedSet) : Option (Bytes × Int64) :=
  set.entries.foldl
    (fun best item =>
      match best with
      | none => some item
      | some found => if itemLt found item then some item else some found)
    none

def maxScore (set : SortedSet) : Int64 :=
  match set.back with
  | none => 0
  | some item => item.2

def popFront (set : SortedSet) : SortedSet :=
  match set.front with
  | none => set
  | some item => set.erase item.1

def popBack (set : SortedSet) : SortedSet :=
  match set.back with
  | none => set
  | some item => set.erase item.1

end SortedSet

/-- The expiration handler's shared fields. -/
structure ExpirationHandler where
  /-- No expiry in the store is known to be earlier. -/
  firstTimeout : Int64 := 0
  /-- In-memory copy of the nearest expiries. -/
  fastKeys : SortedSet := ∅

namespace ExpirationHandler

def batchSize : Nat := 1000

/-- Record a new expiry, keeping only the nearest ones. -/
def insertFastKey (handler : ExpirationHandler) (key : Bytes) (pexpireatMs : Int64) :
    ExpirationHandler :=
  let firstTimeout :=
    if pexpireatMs < handler.firstTimeout then pexpireatMs else handler.firstTimeout
  if handler.fastKeys.size ≠ 0 ∧ pexpireatMs ≤ handler.fastKeys.maxScore then
    let added : SortedSet := handler.fastKeys.put key pexpireatMs
    { firstTimeout, fastKeys := if added.size > batchSize then added.popBack else added }
  else { firstTimeout, fastKeys := handler.fastKeys.erase key }

def delFastKey (handler : ExpirationHandler) (key : Bytes) : ExpirationHandler :=
  { handler with fastKeys := handler.fastKeys.erase key }

end ExpirationHandler

/-- Positions of interrupted scans. -/
abbrev RedisCursorTable := SortedMap Nat Bytes

namespace RedisCursorTable

/-- The number after the largest one in use, in 64 bits. -/
def nextCursor (table : RedisCursorTable) : Nat :=
  match table.keys.getLast? with
  | none => 1
  | some last => (last + 1) % 2 ^ 64

def getNewRedisCursor (table : RedisCursorTable) (element : Bytes) : RedisCursorTable :=
  if (table.get table.nextCursor).isSome then table else table.put table.nextCursor element

end RedisCursorTable

/-- What a command can ask of its surroundings. -/
inductive StorageOp
  /-- Acquire the record mutex of a key. -/
  | lock (key : Bytes)
  | unlock (key : Bytes)
  | get (key : Bytes)
  /-- The store as an iterator or snapshot taken now sees it. -/
  | snapshot
  /-- A point read in a snapshot. -/
  | getAt (snapshot : DB) (key : Bytes)
  | write (batch : WriteBatch)
  | timeMs
  | rand
  | insertFastKey (key : Bytes) (pexpireatMs : Int64)
  | delFastKey (key : Bytes)
  | firstTimeout
  | findCursor (cursor : Nat)
  | newCursor (element : Bytes)

/-- Answers of the operations. -/
abbrev StorageOp.Answer : StorageOp → Type
  | lock _ | unlock _ | insertFastKey _ _ | delFastKey _ => Unit
  | get _ | getAt _ _ => ReadStatus
  | snapshot => DB
  | write _ => Bool
  | timeMs | firstTimeout => Int64
  | rand => Nat
  | findCursor _ => Option Bytes
  | newCursor _ => Nat

abbrev storage : Signature := ⟨StorageOp, StorageOp.Answer⟩

/-- A command of the storage layer. -/
abbrev Command (α : Type) := Program storage α

/-- Everything commands share. -/
structure World where
  db : DB
  expiration : ExpirationHandler
  cursors : RedisCursorTable
  /-- Readings of the clock still to come. -/
  clock : Nat → Int64
  /-- Values of the random source still to come. -/
  random : Nat → Nat

/-- The operations on an engine that does not fail.  Record mutexes have no effect when commands
run one at a time. -/
def atomically : Program.Handler storage World
  | .lock _, world => ((), world)
  | .unlock _, world => ((), world)
  | .get key, world => (.ofOption (world.db.get key), world)
  | .snapshot, world => (world.db, world)
  | .getAt snapshot key, world => (.ofOption (snapshot.get key), world)
  | .write batch, world => (true, { world with db := batch.apply world.db })
  | .timeMs, world => (world.clock 0, { world with clock := fun n => world.clock (n + 1) })
  | .rand, world => (world.random 0, { world with random := fun n => world.random (n + 1) })
  | .insertFastKey key pexpireatMs, world =>
      ((), { world with expiration := world.expiration.insertFastKey key pexpireatMs })
  | .delFastKey key, world => ((), { world with expiration := world.expiration.delFastKey key })
  | .firstTimeout, world => (world.expiration.firstTimeout, world)
  | .findCursor cursor, world => (world.cursors.get cursor, world)
  | .newCursor element, world =>
      (world.cursors.nextCursor,
        { world with cursors := world.cursors.getNewRedisCursor element })

def lockKey (key : Bytes) : Command Unit := @Program.perform storage (.lock key)

def unlockKey (key : Bytes) : Command Unit := @Program.perform storage (.unlock key)

def dbGet (key : Bytes) : Command ReadStatus := @Program.perform storage (.get key)

def getSnapshot : Command DB := @Program.perform storage .snapshot

def snapshotGet (snapshot : DB) (key : Bytes) : Command ReadStatus :=
  @Program.perform storage (.getAt snapshot key)

def commitBatch (batch : WriteBatch) : Command Bool :=
  @Program.perform storage (.write batch)

def timeMs : Command Int64 := @Program.perform storage .timeMs

def rand : Command Nat := @Program.perform storage .rand

def insertFastKey (key : Bytes) (pexpireatMs : Int64) : Command Unit :=
  @Program.perform storage (.insertFastKey key pexpireatMs)

def delFastKey (key : Bytes) : Command Unit :=
  @Program.perform storage (.delFastKey key)

def firstTimeout : Command Int64 := @Program.perform storage .firstTimeout

def findElementByRedisCursor (cursor : Nat) : Command (Option Bytes) :=
  @Program.perform storage (.findCursor cursor)

def getNewRedisCursor (element : Bytes) : Command Nat :=
  @Program.perform storage (.newCursor element)

/-- Hold the record mutex of a key during a command. -/
def recordKeyLock {α : Type} (key : Bytes) (body : Command α) : Command α := do
  lockKey key
  let result ← body
  unlockKey key
  return result

end Vcdb
