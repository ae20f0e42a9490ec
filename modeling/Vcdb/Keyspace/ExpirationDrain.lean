import Vcdb.Keyspace.ServerRun

/-!
# The expiration thread left alone

While nobody else takes a turn and the clock stands still, the thread deletes every key that is due
and comes to rest.
-/

namespace Vcdb

/-- Rounds of the thread, one after the other, at a clock that stands still. -/
def rounds (now : Int64) : Nat → World → World
  | 0, world => world
  | count + 1, world => rounds now count (expirationRound (world.at now))

section Due

variable {db : DB} {now : Int64} {key : Bytes}

end Due

section Draining

variable {lost : Set Bytes} {now : Int64} {world : World} {keys : List Bytes}

end Draining

end Vcdb
