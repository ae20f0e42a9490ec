import Vcdb.Codec.RecordKey
import Vcdb.Storage.ZsetRange

/-!
# The order of scores

Encoded scores are ordered like the numbers, apart from the two zeros: they are equal as numbers
and neighbours in the encoding.
-/

namespace Vcdb

namespace Double

def negZero : Double := 0x8000000000000000

/-- The place of a number among the others; the two zeros share theirs. -/
def rank (d : Double) : Nat := if d.isZero then 2 ^ 63 else (encodeScore d).toNat

theorem isZero_iff {d : Double} : d.isZero = true ↔ d = 0 ∨ d = negZero := by
  have mask : (0x7FFFFFFFFFFFFFFF : UInt64).toNat = 2 ^ 63 - 1 := by decide
  have sign : negZero.toNat = 2 ^ 63 := by decide
  have below := d.toNat_lt
  rw [isZero, decide_eq_true_eq, ← UInt64.toNat_inj, ← UInt64.toNat_inj, ← UInt64.toNat_inj,
    UInt64.toNat_and, mask, Nat.and_two_pow_sub_one_eq_mod, sign]
  have zero : (0 : UInt64).toNat = 0 := rfl
  rw [zero]
  omega

theorem encodeScore_zero : (encodeScore 0).toNat = 2 ^ 63 := by decide

theorem encodeScore_negZero : (encodeScore negZero).toNat + 1 = 2 ^ 63 := by decide

/-- The zeros are next to each other, and nothing else has their codes. -/
theorem encodeScore_cases (d : Double) :
    d.isZero = true ∧ ((encodeScore d).toNat = 2 ^ 63 ∨ (encodeScore d).toNat + 1 = 2 ^ 63) ∨
      d.isZero = false ∧ (encodeScore d).toNat ≠ 2 ^ 63 ∧ (encodeScore d).toNat + 1 ≠ 2 ^ 63 := by
  by_cases zero : d.isZero
  · left
    rcases isZero_iff.mp zero with rfl | rfl
    · exact ⟨zero, Or.inl encodeScore_zero⟩
    · exact ⟨zero, Or.inr encodeScore_negZero⟩
  · right
    refine ⟨by simpa using zero, fun same => zero ?_, fun same => zero ?_⟩
    · rw [← encodeScore_zero, UInt64.toNat_inj] at same
      exact isZero_iff.mpr (Or.inl (encodeScore_injective same))
    · have codes : (encodeScore d).toNat = (encodeScore negZero).toNat := by
        have := encodeScore_negZero
        omega
      exact isZero_iff.mpr (Or.inr (encodeScore_injective (UInt64.toNat_inj.mp codes)))

theorem rank_cases (d : Double) :
    d.isZero = true ∧ d.rank = 2 ^ 63 ∧
        ((encodeScore d).toNat = 2 ^ 63 ∨ (encodeScore d).toNat + 1 = 2 ^ 63) ∨
      d.isZero = false ∧ d.rank = (encodeScore d).toNat ∧
        (encodeScore d).toNat ≠ 2 ^ 63 ∧ (encodeScore d).toNat + 1 ≠ 2 ^ 63 := by
  rcases encodeScore_cases d with ⟨zero, codes⟩ | ⟨nonzero, codes⟩
  · exact Or.inl ⟨zero, if_pos zero, codes⟩
  · exact Or.inr ⟨nonzero, if_neg (by simp [nonzero]), codes⟩

theorem rank_of_nonzero {d : Double} (nonzero : d.isZero = false) :
    d.rank = (encodeScore d).toNat ∧ (encodeScore d).toNat ≠ 2 ^ 63 ∧
      (encodeScore d).toNat + 1 ≠ 2 ^ 63 := by
  rcases rank_cases d with ⟨zero, _⟩ | ⟨_, cases⟩
  · rw [nonzero] at zero
    exact absurd zero Bool.false_ne_true
  · exact cases

theorem rank_of_zero {d : Double} (zero : d.isZero = true) : d.rank = 2 ^ 63 := if_pos zero

variable {left right : Double}

theorem rank_le_of_encodeScore_le (le : (encodeScore left).toNat ≤ (encodeScore right).toNat) :
    left.rank ≤ right.rank := by
  have := rank_cases left
  have := rank_cases right
  omega

theorem encodeScore_lt_of_rank_lt (lt : left.rank < right.rank) :
    (encodeScore left).toNat < (encodeScore right).toNat := by
  have := rank_cases left
  have := rank_cases right
  omega

theorem encodeScore_le_of_rank_le (nonzero : left.isZero = false) (le : left.rank ≤ right.rank) :
    (encodeScore left).toNat ≤ (encodeScore right).toNat := by
  have := rank_of_nonzero nonzero
  have := rank_cases right
  omega

theorem eq_of_rank_eq (nonzero : left.isZero = false) (same : left.rank = right.rank) :
    left = right := by
  have := rank_of_nonzero nonzero
  have := rank_cases right
  refine encodeScore_injective (UInt64.toNat_inj.mp ?_)
  omega

theorem lt_iff (leftNumber : left.isNan = false) (rightNumber : right.isNan = false) :
    left.lt right = true ↔ left.rank < right.rank := by
  rw [lt, leftNumber, rightNumber]
  simp only [Bool.not_false, Bool.true_and, Bool.and_eq_true, Bool.not_eq_true',
    Bool.and_eq_false_iff, decide_eq_true_eq, UInt64.lt_iff_toNat_lt]
  constructor
  · rintro ⟨nonzero | nonzero, lt⟩
    · have := rank_of_nonzero nonzero
      have := rank_cases right
      omega
    · have := rank_of_nonzero nonzero
      have := rank_cases left
      omega
  · intro lt
    refine ⟨?_, encodeScore_lt_of_rank_lt lt⟩
    by_contra both
    simp only [not_or, Bool.not_eq_false] at both
    rw [rank_of_zero both.1, rank_of_zero both.2] at lt
    exact lt_irrefl _ lt

theorem eq_iff (leftNumber : left.isNan = false) (rightNumber : right.isNan = false) :
    left.eq right = true ↔ left.rank = right.rank := by
  rw [eq, leftNumber, rightNumber]
  simp only [Bool.not_false, Bool.true_and, Bool.or_eq_true, Bool.and_eq_true, decide_eq_true_eq]
  constructor
  · rintro (rfl | ⟨zero, zero'⟩)
    · rfl
    · rw [rank, rank, if_pos zero, if_pos zero']
  · intro same
    rcases Bool.eq_false_or_eq_true left.isZero with zero | nonzero
    · rcases Bool.eq_false_or_eq_true right.isZero with zero' | nonzero'
      · exact Or.inr ⟨zero, zero'⟩
      · exact Or.inl (eq_of_rank_eq nonzero' same.symm).symm
    · exact Or.inl (eq_of_rank_eq nonzero same)

theorem le_iff (leftNumber : left.isNan = false) (rightNumber : right.isNan = false) :
    left.le right = true ↔ left.rank ≤ right.rank := by
  rw [le, Bool.or_eq_true, lt_iff leftNumber rightNumber, eq_iff leftNumber rightNumber,
    Nat.le_iff_lt_or_eq]

theorem numbers_of_lt (lt : left.lt right = true) : left.isNan = false ∧ right.isNan = false := by
  simp only [Double.lt, Bool.and_eq_true, Bool.not_eq_true'] at lt
  exact ⟨lt.1.1.1, lt.1.1.2⟩

theorem rank_lt_of_lt (lt : left.lt right = true) : left.rank < right.rank :=
  (lt_iff (numbers_of_lt lt).1 (numbers_of_lt lt).2).mp lt

/-- The magnitude of a number stays below that of the NaNs. -/
theorem isNan_eq_false {d : Double} :
    d.isNan = false ↔ d.toNat % 2 ^ 63 ≤ 0x7FF0000000000000 := by
  have mask : (0x7FFFFFFFFFFFFFFF : UInt64).toNat = 2 ^ 63 - 1 := by decide
  have bound : (0x7FF0000000000000 : UInt64).toNat = 0x7FF0000000000000 := rfl
  rw [isNan, decide_eq_false_iff_not, UInt64.lt_iff_toNat_lt, UInt64.toNat_and, mask,
    Nat.and_two_pow_sub_one_eq_mod, bound, not_lt]

/-- The code of a positive number has the sign bit set, that of a negative one is inverted. -/
theorem toNat_encodeScore (d : Double) :
    (encodeScore d).toNat =
      if 2 ^ 63 ≤ d.toNat then 2 ^ 64 - 1 - d.toNat else d.toNat + 2 ^ 63 := by
  rw [encodeScore]
  by_cases negative : 2 ^ 63 ≤ d.toNat
  · rw [if_pos ((shiftRight_eq_one_iff d).mpr negative), if_pos negative, xor_ones,
      UInt64.toNat_not]
    rfl
  · rw [if_neg (mt (shiftRight_eq_one_iff d).mp negative), if_neg negative,
      toNat_or_signBit (Nat.lt_of_not_le negative)]

/-- Numbers are encoded between the two NaNs that stand for missing bounds. -/
theorem encodeScore_between {d : Double} (number : d.isNan = false) :
    (encodeScore negQuietNan).toNat < (encodeScore d).toNat ∧
      (encodeScore d).toNat < (encodeScore quietNan).toNat := by
  have low : (encodeScore negQuietNan).toNat = 0x0007FFFFFFFFFFFF := by decide
  have high : (encodeScore quietNan).toNat = 0xFFF8000000000000 := by decide
  have magnitude := isNan_eq_false.mp number
  have below := d.toNat_lt
  rw [low, high, toNat_encodeScore]
  split_ifs with negative <;> omega

end Double

end Vcdb
