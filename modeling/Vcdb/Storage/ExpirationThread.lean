import Vcdb.Storage.Iterator
import Vcdb.Storage.Kv

/-!
# The expiration thread

The thread keeps a copy of the nearest expiries.  When the copy is empty it is filled from the
index of expiries; the keys that are due are taken from its front and deleted together.
-/

namespace Vcdb

/-- The entries of the expiry index at the front of a scan; what cannot be decoded is passed by. -/
def eiterator : List (Bytes × Bytes) → List EScoreItemKey
  | [] => []
  | (ks, _) :: rest =>
      if ks.head? ≠ some DataType.escore then []
      else
        match decodeEScoreItemKey ks with
        | none => eiterator rest
        | some ek => ek :: eiterator rest

/-- What the thread finds when it looks for expiries. -/
def nearestExpiries (db : DB) (num : Nat) : List EScoreItemKey :=
  eiterator (iterator db [DataType.escore] [] (some num))

def ExpirationHandler.addFastKey (handler : ExpirationHandler) (ek : EScoreItemKey) :
    ExpirationHandler :=
  { handler with fastKeys := handler.fastKeys.put ek.field ek.score }

/-- The handler's fields, changed under its mutex. -/
def World.handle (world : World) (change : ExpirationHandler → ExpirationHandler) : World :=
  { world with expiration := change world.expiration }

def loadExpirationKeysFromDb (num : Nat) (world : World) : World :=
  (nearestExpiries world.db num).foldl (fun world ek => world.handle (·.addFastKey ek)) world

/-- Take the keys that are due from the front, at most `count` of them. -/
def popDueKeys : Nat → World → SortedMap Bytes Unit → SortedMap Bytes Unit × World
  | 0, world, keys => (keys, world)
  | count + 1, world, keys =>
      match world.expiration.fastKeys.front with
      | none => (keys, world)
      | some (key, score) =>
          let world := world.handle fun handler => { handler with firstTimeout := score }
          let (now, world) := atomically .timeMs world
          if 0 ≤ now - score then
            popDueKeys count
              (world.handle fun handler => { handler with fastKeys := handler.fastKeys.popFront })
              (keys.put key ())
          else (keys, world)

/-- Keys taken in one round. -/
def roundSize : Nat := 102

/-- Where the thread stands in its loop.  Between two of these points it holds the handler's mutex,
or does nothing that others can see. -/
inductive ExpirationPhase
  | waiting
  | checking
  | scanning
  /-- Entries that an iterator has still to deliver. -/
  | loading (rest : List EScoreItemKey)
  | loaded
  | popping
  | deleting (keys : SortedMap Bytes Unit)

/-- What the thread does until others can run again. -/
def threadFunc : ExpirationPhase → World → ExpirationPhase × World
  | .waiting, world =>
      let (now, world) := atomically .timeMs world
      (if now < world.expiration.firstTimeout then .waiting else .checking, world)
  | .checking, world =>
      (if world.expiration.fastKeys.size = 0 then .scanning else .popping, world)
  | .scanning, world =>
      (.loading (nearestExpiries world.db ExpirationHandler.batchSize), world)
  | .loading [], world => (.loaded, world)
  | .loading (ek :: rest), world => (.loading rest, world.handle (·.addFastKey ek))
  | .loaded, world =>
      if world.expiration.fastKeys.size = 0 then
        (.waiting, world.handle fun handler => { handler with firstTimeout := int64Max })
      else (.popping, world)
  | .popping, world =>
      let (keys, world) := popDueKeys roundSize world ∅
      (.deleting keys, world)
  | .deleting keys, world => (.waiting, ((multiDel keys.keys).eval atomically world).2)

/-- One pass through the loop with nobody in between. -/
def expireLoop (world : World) : World :=
  let needLoad := world.expiration.fastKeys.size = 0
  let world :=
    if needLoad then loadExpirationKeysFromDb ExpirationHandler.batchSize world else world
  if needLoad ∧ world.expiration.fastKeys.size = 0 then
    world.handle fun handler => { handler with firstTimeout := int64Max }
  else
    let (keys, world) := popDueKeys roundSize world ∅
    ((multiDel keys.keys).eval atomically world).2

/-- The thread sleeps, or goes through its loop once. -/
def expirationRound (world : World) : World :=
  let (now, world) := atomically .timeMs world
  if now < world.expiration.firstTimeout then world else expireLoop world

end Vcdb
