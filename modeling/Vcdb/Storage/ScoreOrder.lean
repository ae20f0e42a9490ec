import Vcdb.Codec.RoundTrip
import Vcdb.Storage.Score
import Vcdb.Storage.ScoreIndex

/-!
# The total order of bit patterns

Encoding turns the total order of IEEE 754, which places every bit pattern, into the order of
unsigned numbers, and so the index of a sorted set into one by score and member.
-/

namespace Vcdb

namespace Double

def isNegative (d : Double) : Bool := signBit ≤ d

/-- All bits but the sign. -/
def magnitude (d : Double) : UInt64 := d &&& ~~~signBit

/-- Negative patterns come before positive ones, and the larger magnitude comes first among the
negative ones. -/
def TotalLt (left right : Double) : Prop :=
  match left.isNegative, right.isNegative with
  | true, false => True
  | false, true => False
  | false, false => left.magnitude < right.magnitude
  | true, true => right.magnitude < left.magnitude

theorem isNegative_iff (d : Double) : d.isNegative = true ↔ 2 ^ 63 ≤ d.toNat := by
  rw [isNegative, decide_eq_true_eq, UInt64.le_iff_toNat_le]
  rfl

theorem encodeScore_lt_iff {left right : Double} :
    encodeScore left < encodeScore right ↔ left.TotalLt right := by
  have below := left.toNat_lt
  have below' := right.toNat_lt
  have negative := isNegative_iff left
  have negative' := isNegative_iff right
  rw [UInt64.lt_iff_toNat_lt, toNat_encodeScore, toNat_encodeScore, TotalLt]
  cases signLeft : left.isNegative <;> cases signRight : right.isNegative
  all_goals
    rw [signLeft] at negative
    rw [signRight] at negative'
    simp only [Bool.false_eq_true, false_iff, true_iff] at negative negative'
    simp only [negative, negative', if_true, if_false, UInt64.lt_iff_toNat_lt, magnitude,
      and_not_signBit, iff_true, iff_false]
    omega

theorem toNat_encodeScore_inj {left right : Double} :
    (encodeScore left).toNat = (encodeScore right).toNat ↔ left = right :=
  UInt64.toNat_inj.trans encodeScore_injective.eq_iff

end Double

section Keys

variable (key : Bytes) (version : UInt16)

/-- The keys of the index are ordered by score and then by member. -/
theorem encodeZscoreKey_lt_iff {member member' : Bytes} {score score' : Double} :
    encodeZscoreKey key member score version < encodeZscoreKey key member' score' version ↔
      score.TotalLt score' ∨ score = score' ∧ member < member' := by
  rw [encodeZscoreKey_eq_append, encodeZscoreKey_eq_append, SortedMap.append_lt_append_iff,
    @scoreEntry_lt_iff (member, score) (member', score'), indexKey_lt_iff,
    ← UInt64.lt_iff_toNat_lt, Double.encodeScore_lt_iff, Double.toNat_encodeScore_inj]

theorem negQuietNan_totalLt {score : Double} (number : score.isNan = false) :
    Double.negQuietNan.TotalLt score :=
  Double.encodeScore_lt_iff.mp (UInt64.lt_iff_toNat_lt.mpr (Double.encodeScore_between number).1)

theorem totalLt_quietNan {score : Double} (number : score.isNan = false) :
    score.TotalLt Double.quietNan :=
  Double.encodeScore_lt_iff.mp (UInt64.lt_iff_toNat_lt.mpr (Double.encodeScore_between number).2)

end Keys

/-- Scores are encoded one to one and in their total order; the keys of one sorted set are in the
order of score and member, between the limits of an unbounded scan when the score is a number, and
give back score and member. -/
theorem scoreEncoding_isomorphism :
    (∀ score : Double, decodeScore (encodeScore score) = score) ∧
    (∀ c : UInt64, encodeScore (decodeScore c) = c) ∧
    (∀ left right : Double, encodeScore left < encodeScore right ↔ left.TotalLt right) ∧
    ∀ (key : UserKey) (version : UInt16) (member : Bytes) (score : Double),
      (∀ (member' : Bytes) (score' : Double),
        encodeZscoreKey key.1 member score version < encodeZscoreKey key.1 member' score' version ↔
          score.TotalLt score' ∨ score = score' ∧ member < member') ∧
      (score.isNan = false → ∀ float : FloatUnit,
        zscanKey float key.1 [] Double.negQuietNan version <
            encodeZscoreKey key.1 member score version ∧
          encodeZscoreKey key.1 member score version <
            zscanKey float key.1 [] Double.quietNan version) ∧
      decodeZScoreItemKey (encodeZscoreKey key.1 member score version) =
        some { key := key.1, version, field := member, score } := by
  refine ⟨decodeScore_encodeScore, encodeScore_decodeScore,
    fun _ _ => Double.encodeScore_lt_iff, fun key version member score => ⟨?_, ?_, ?_⟩⟩
  · exact fun _ _ => encodeZscoreKey_lt_iff key.1 version
  · intro number float
    exact ⟨(encodeZscoreKey_lt_iff key.1 version).mpr (Or.inl (negQuietNan_totalLt number)),
      (encodeZscoreKey_lt_iff key.1 version).mpr (Or.inl (totalLt_quietNan number))⟩
  · exact @StorageKey.decodes (.zscore key.1 version score member) key.2

end Vcdb
