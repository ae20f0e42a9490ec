import Vcdb.Keyspace.Run
import Vcdb.Keyspace.Set

/-!
# Samples of a set

A sample of the members is a block of the list in which the store keeps them; for a negative count
the whole list is repeated first.  The number of repetitions is an `int`, so counts of `2 ^ 31`
times the set or more are not met.
-/

namespace Vcdb

/-- What the random number is divided by to find where a sample starts. -/
def sampleDivisor (length : UInt64) (cnt : Int64) : UInt64 :=
  let startIndexMax := length - cnt.toUInt64 + 1
  if 100 < startIndexMax then 100 else startIndexMax

theorem sampleWindow_random {length : UInt64} {cnt : Int64} (part : ¬length ≤ cnt.toUInt64)
    (narrow : ¬intMax < cnt) :
    sampleWindow length cnt = do
      return .ok ((← rand) % (sampleDivisor length cnt).toNat, cnt.toUInt64.toNat) := by
  rw [sampleWindow, if_neg part, if_neg narrow]
  rfl

section Repeats

variable {card : Nat} {count : Int64}

/-- The magnitude of the least count is kept by the wrapped negation. -/
theorem toNat_neg (negative : count.toInt < 0) :
    ((-count).toUInt64.toNat : Int) = -count.toInt := by
  have split := toInt_toInt64 (-count).toUInt64
  have lower := count.le_toInt
  have below := (-count).toUInt64.toNat_lt
  rw [Int64.toInt64_toUInt64, Int64.toInt_neg, Int.bmod_def] at split
  split_ifs at split <;> omega

end Repeats

section Samples

variable {world : World} {key : UserKey} {members : Finset Bytes} {version : UInt16}

variable (view : SetView world.db.contents key (some (version, .set members)) members version)
  (positive : 0 < members.card) (small : members.card < 2 ^ 31) {count : Int64}

include view positive small

end Samples

section Single

end Single

end Vcdb
