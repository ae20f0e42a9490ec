import Vcdb.Codec.Encode
import Vcdb.Lib.Decimal

/-!
# Integers as text

`string2ll` accepts a 64-bit integer only in the form `str` writes it in.
-/

namespace Vcdb

/-- Read the digits of a number that starts with `v`; every byte must be a digit. -/
def readDigits : UInt64 → Bytes → Option UInt64
  | v, [] => some v
  | v, c :: rest =>
      if Decimal.IsDigit c then
        if v > 0xFFFFFFFFFFFFFFFF / 10 then none
        else
          let v := v * 10
          let d := (c - 48).toUInt64
          if v > 0xFFFFFFFFFFFFFFFF - d then none else readDigits (v + d) rest
      else none

/-- The part of `string2ll` behind an optional sign. -/
def readMagnitude : Bytes → Option UInt64
  | [] => none
  | c :: rest => if 49 ≤ c ∧ c ≤ 57 then readDigits (c - 48).toUInt64 rest else none

def string2ll (s : Bytes) : Option Int64 :=
  if s = [48] then some 0
  else
    match s with
    | [] => none
    | first :: rest =>
        if first = 45 then
          match readMagnitude rest with
          | none => none
          | some v => if v > 0x8000000000000000 then none else some (-v).toInt64
        else
          match readMagnitude s with
          | none => none
          | some v => if v > 0x7FFFFFFFFFFFFFFF then none else some v.toInt64

/-- The decimal form of a 64-bit unsigned integer. -/
def strUInt64 (v : UInt64) : Bytes := Decimal.numeral 20 v.toNat

/-- The decimal form of a 64-bit integer. -/
def str (v : Int64) : Bytes :=
  if v < 0 then 45 :: Decimal.numeral 20 v.toInt.natAbs else Decimal.numeral 20 v.toInt.natAbs

theorem readDigits_eq_some {v w : UInt64} {digits : Bytes} :
    readDigits v digits = some w ↔
      (∀ c ∈ digits, Decimal.IsDigit c) ∧
        w.toNat = v.toNat * 10 ^ digits.length + Decimal.value digits := by
  induction digits generalizing v with
  | nil => simp [readDigits, Decimal.value, eq_comm, UInt64.toNat_inj]
  | cons c rest ih =>
      unfold readDigits
      by_cases digitC : Decimal.IsDigit c
      · have lower : 48 ≤ c.toNat := digitC.1
        have upper : c.toNat ≤ 57 := digitC.2
        have size := v.toNat_lt
        have sizeW := w.toNat_lt
        have digitEq : (c - 48).toUInt64.toNat = Decimal.digitValue c := by
          rw [UInt8.toNat_toUInt64, UInt8.toNat_sub_of_le _ _ digitC.1]
          rfl
        have digitLt := Decimal.digitValue_lt digitC
        have quotient : ((0xFFFFFFFFFFFFFFFF : UInt64) / 10).toNat = 1844674407370955161 := by
          decide
        have powPositive : 0 < 10 ^ rest.length := Nat.pow_pos (by decide)
        rw [if_pos digitC, Decimal.value_cons, List.length_cons, pow_succ']
        by_cases tooLarge : v > 0xFFFFFFFFFFFFFFFF / 10
        · rw [if_pos tooLarge]
          rw [gt_iff_lt, UInt64.lt_iff_toNat_lt, quotient] at tooLarge
          simp only [reduceCtorEq, false_iff, not_and]
          intro _ total
          have large : 2 ^ 64 ≤ v.toNat * 10 := by omega
          have : v.toNat * 10 ≤ v.toNat * (10 * 10 ^ rest.length) :=
            Nat.mul_le_mul_left _ (Nat.le_mul_of_pos_right _ powPositive)
          omega
        · rw [if_neg tooLarge]
          rw [gt_iff_lt, UInt64.lt_iff_toNat_lt, quotient, not_lt] at tooLarge
          have scaled : (v * 10).toNat = v.toNat * 10 := by
            rw [UInt64.toNat_mul]
            have : (10 : UInt64).toNat = 10 := rfl
            rw [this]
            omega
          have ceiling : (0xFFFFFFFFFFFFFFFF - (c - 48).toUInt64).toNat =
              18446744073709551615 - Decimal.digitValue c := by
            rw [UInt64.toNat_sub_of_le, digitEq]
            · rfl
            · rw [UInt64.le_iff_toNat_le, digitEq]
              have : (0xFFFFFFFFFFFFFFFF : UInt64).toNat = 18446744073709551615 := by decide
              omega
          simp only
          by_cases overflow : v * 10 > 0xFFFFFFFFFFFFFFFF - (c - 48).toUInt64
          · rw [if_pos overflow]
            rw [gt_iff_lt, UInt64.lt_iff_toNat_lt, scaled, ceiling] at overflow
            simp only [reduceCtorEq, false_iff, not_and]
            intro _ total
            have large : 2 ^ 64 ≤ v.toNat * 10 + Decimal.digitValue c := by omega
            have : v.toNat * 10 + Decimal.digitValue c ≤
                (v.toNat * 10 + Decimal.digitValue c) * 10 ^ rest.length :=
              Nat.le_mul_of_pos_right _ powPositive
            rw [Nat.add_mul, Nat.mul_assoc] at this
            omega
          · rw [if_neg overflow, ih]
            rw [gt_iff_lt, UInt64.lt_iff_toNat_lt, scaled, ceiling, not_lt] at overflow
            have sum : (v * 10 + (c - 48).toUInt64).toNat =
                v.toNat * 10 + Decimal.digitValue c := by
              rw [UInt64.toNat_add, scaled, digitEq]
              omega
            rw [sum, Nat.add_mul, Nat.mul_assoc, Nat.add_assoc]
            simp [digitC]
      · rw [if_neg digitC]
        simp [digitC]

theorem toUInt64_digit {c : UInt8} (isDigit : Decimal.IsDigit c) :
    (c - 48).toUInt64.toNat = Decimal.digitValue c := by
  rw [UInt8.toNat_toUInt64, UInt8.toNat_sub_of_le _ _ isDigit.1]
  rfl

/-- A magnitude is accepted only as the numeral of a positive number. -/
theorem readMagnitude_eq_some {digits : Bytes} {v : UInt64} :
    readMagnitude digits = some v ↔ 0 < v.toNat ∧ digits = Decimal.numeral 20 v.toNat := by
  have size := v.toNat_lt
  constructor
  · intro read
    match digits, read with
    | c :: rest, read =>
        rw [readMagnitude] at read
        split_ifs at read with first
        have digitC : Decimal.IsDigit c := ⟨le_trans (by decide) first.1, first.2⟩
        have nonzero : c ≠ 48 := by
          rintro rfl
          exact absurd first.1 (by decide)
        rw [readDigits_eq_some, toUInt64_digit digitC, ← Decimal.value_cons] at read
        have all : ∀ d ∈ c :: rest, Decimal.IsDigit d := by
          rintro d (_ | ⟨_, mem⟩)
          · exact digitC
          · exact read.1 d mem
        have length : 10 ^ rest.length ≤ Decimal.value (c :: rest) :=
          Decimal.le_value_of_head digitC nonzero
        have fits : rest.length < 20 := by
          by_contra long
          have : 10 ^ 20 ≤ 10 ^ rest.length := Nat.pow_le_pow_right (by decide) (not_lt.mp long)
          omega
        refine ⟨?_, ?_⟩
        · rw [read.2]
          exact Decimal.value_pos_of_head digitC nonzero
        · rw [read.2, Decimal.numeral_value all nonzero fits]
  · rintro ⟨positive, rfl⟩
    obtain ⟨c, head, digitC, nonzero⟩ := Decimal.head?_numeral
      (show v.toNat < 10 ^ 20 by omega) positive
    obtain ⟨rest, spelled⟩ : ∃ rest, Decimal.numeral 20 v.toNat = c :: rest := by
      cases numeral : Decimal.numeral 20 v.toNat with
      | nil => rw [numeral] at head; simp at head
      | cons d rest =>
          rw [numeral, List.head?_cons, Option.some_inj] at head
          exact ⟨rest, by rw [head]⟩
    have first : 49 ≤ c ∧ c ≤ 57 := by
      refine ⟨?_, digitC.2⟩
      have lower : 48 ≤ c.toNat := digitC.1
      have notZero : c.toNat ≠ 48 := fun eq => nonzero (UInt8.toNat_inj.mp eq)
      rw [UInt8.le_iff_toNat_le]
      show 49 ≤ c.toNat
      omega
    rw [spelled, readMagnitude, if_pos first, readDigits_eq_some, toUInt64_digit digitC,
      ← Decimal.value_cons, ← spelled,
      Decimal.value_numeral (by omega) (by decide)]
    exact ⟨fun d mem => Decimal.isDigit_of_mem_numeral (by
      rw [spelled]
      exact List.mem_cons_of_mem _ mem), rfl⟩

theorem toInt_toInt64 (v : UInt64) :
    v.toInt64.toInt = if v.toNat < 2 ^ 63 then (v.toNat : Int) else v.toNat - 2 ^ 64 := by
  show v.toBitVec.toInt = _
  rw [BitVec.toInt_eq_toNat_cond, UInt64.toNat_toBitVec]
  split_ifs <;> omega

theorem toInt_toInt32 (v : UInt32) :
    v.toInt32.toInt = if v.toNat < 2 ^ 31 then (v.toNat : Int) else v.toNat - 2 ^ 32 := by
  show v.toBitVec.toInt = _
  rw [BitVec.toInt_eq_toNat_cond, UInt32.toNat_toBitVec]
  split_ifs <;> omega

/-- What an `int` keeps of a 64-bit number. -/
theorem toInt_narrow (v : UInt64) :
    ∃ k : Nat, v.toUInt32.toInt32.toInt = (v.toNat : Int) - 2 ^ 32 * k ∧
      -2 ^ 31 ≤ v.toUInt32.toInt32.toInt ∧ v.toUInt32.toInt32.toInt < 2 ^ 31 := by
  have kept : v.toUInt32.toNat = v.toNat % 2 ^ 32 := UInt64.toNat_toUInt32 v
  have split := Nat.div_add_mod v.toNat (2 ^ 32)
  have below := Nat.mod_lt v.toNat (show 0 < 2 ^ 32 by decide)
  rw [toInt_toInt32, kept]
  split_ifs with low
  · exact ⟨v.toNat / 2 ^ 32, by omega, by omega, by omega⟩
  · exact ⟨v.toNat / 2 ^ 32 + 1, by push_cast; omega, by omega, by omega⟩

theorem toNat_toUInt64 {n : Int64} (nonneg : 0 ≤ n.toInt) : (n.toUInt64.toNat : Int) = n.toInt := by
  have split := toInt_toInt64 n.toUInt64
  have upper := n.toInt_lt
  have below := n.toUInt64.toNat_lt
  rw [show n.toUInt64.toInt64 = n from rfl] at split
  split_ifs at split <;> omega

theorem toInt_add_of_range {m n : Int64} (lower : -2 ^ 63 ≤ m.toInt + n.toInt)
    (upper : m.toInt + n.toInt < 2 ^ 63) : (m + n).toInt = m.toInt + n.toInt := by
  rw [Int64.toInt_add]
  simp only [Int.bmod_def]
  omega

theorem toInt_sub_of_range {m n : Int64} (lower : -2 ^ 63 ≤ m.toInt - n.toInt)
    (upper : m.toInt - n.toInt < 2 ^ 63) : (m - n).toInt = m.toInt - n.toInt := by
  rw [Int64.toInt_sub]
  simp only [Int.bmod_def]
  omega

theorem toInt_one : (1 : Int64).toInt = 1 := rfl

theorem toInt_lt_zero (n : Int64) : n < 0 ↔ n.toInt < 0 := Int64.lt_iff_toInt_lt

theorem str_of_neg {n : Int64} (negative : n.toInt < 0) :
    str n = 45 :: Decimal.numeral 20 n.toInt.natAbs := by
  rw [str, if_pos ((toInt_lt_zero n).mpr negative)]

theorem str_of_nonneg {n : Int64} (nonneg : 0 ≤ n.toInt) :
    str n = Decimal.numeral 20 n.toInt.natAbs := by
  rw [str, if_neg (by rw [toInt_lt_zero]; omega)]

theorem eq_str_of_string2ll {s : Bytes} {n : Int64} (read : string2ll s = some n) :
    s = str n := by
  have top : (0x8000000000000000 : UInt64).toNat = 2 ^ 63 := by decide
  have half : (0x7FFFFFFFFFFFFFFF : UInt64).toNat = 2 ^ 63 - 1 := by decide
  unfold string2ll at read
  split_ifs at read with zero
  · obtain rfl : 0 = n := Option.some_inj.mp read
    exact zero
  · match s, read with
    | first :: rest, read =>
        simp only at read
        split_ifs at read with sign
        · cases magnitude : readMagnitude rest with
          | none => simp [magnitude] at read
          | some v =>
              rw [magnitude] at read
              simp only [gt_iff_lt, UInt64.lt_iff_toNat_lt, top] at read
              split_ifs at read with large
              obtain ⟨positive, spelled⟩ := readMagnitude_eq_some.mp magnitude
              obtain rfl := Option.some_inj.mp read
              have neg : (-v).toNat = 2 ^ 64 - v.toNat := by
                rw [UInt64.toNat_neg, UInt64.size]
                omega
              have toInt : (-v).toInt64.toInt = -(v.toNat : Int) := by
                rw [toInt_toInt64, neg, if_neg (by omega)]
                omega
              rw [str_of_neg (by omega), toInt, Int.natAbs_neg, Int.natAbs_natCast, ← spelled, sign]
        · cases magnitude : readMagnitude (first :: rest) with
          | none => simp [magnitude] at read
          | some v =>
              rw [magnitude] at read
              simp only [gt_iff_lt, UInt64.lt_iff_toNat_lt, half] at read
              split_ifs at read with large
              obtain ⟨positive, spelled⟩ := readMagnitude_eq_some.mp magnitude
              obtain rfl := Option.some_inj.mp read
              have toInt : v.toInt64.toInt = v.toNat := by
                rw [toInt_toInt64, if_pos (by omega)]
              rw [str_of_nonneg (by omega), toInt, Int.natAbs_natCast, ← spelled]

theorem string2ll_str (n : Int64) : string2ll (str n) = some n := by
  have lower := n.le_toInt
  have upper := n.toInt_lt
  have top : (0x8000000000000000 : UInt64).toNat = 2 ^ 63 := by decide
  have half : (0x7FFFFFFFFFFFFFFF : UInt64).toNat = 2 ^ 63 - 1 := by decide
  have small : n.toInt.natAbs < UInt64.size := by rw [UInt64.size]; omega
  have cast : (UInt64.ofNat n.toInt.natAbs).toNat = n.toInt.natAbs := UInt64.toNat_ofNat_of_lt' small
  rcases lt_trichotomy n.toInt 0 with negative | zero | positive
  · have magnitude : readMagnitude (Decimal.numeral 20 n.toInt.natAbs) =
        some (UInt64.ofNat n.toInt.natAbs) :=
      readMagnitude_eq_some.mpr ⟨by omega, by rw [cast]⟩
    rw [str_of_neg negative, string2ll, if_neg (by simp)]
    simp only [if_true, magnitude, gt_iff_lt, UInt64.lt_iff_toNat_lt, top, cast]
    rw [if_neg (by omega), Option.some_inj, ← Int64.toInt_inj, toInt_toInt64, UInt64.toNat_neg,
      cast, UInt64.size]
    split_ifs <;> omega
  · obtain rfl : n = 0 := Int64.toInt_inj.mp zero
    decide
  · have magnitude : readMagnitude (Decimal.numeral 20 n.toInt.natAbs) =
        some (UInt64.ofNat n.toInt.natAbs) :=
      readMagnitude_eq_some.mpr ⟨by omega, by rw [cast]⟩
    obtain ⟨c, head, digitC, nonzero⟩ := Decimal.head?_numeral
      (show n.toInt.natAbs < 10 ^ 20 by omega) (by omega)
    have notZero : Decimal.numeral 20 n.toInt.natAbs ≠ [48] := by
      intro single
      rw [single] at head
      exact nonzero (Option.some_inj.mp head).symm
    rw [str_of_nonneg (by omega), string2ll.eq_def, if_neg notZero]
    cases spelled : Decimal.numeral 20 n.toInt.natAbs with
    | nil => rw [spelled] at head; simp at head
    | cons d rest =>
        rw [spelled, List.head?_cons, Option.some_inj] at head
        rw [spelled] at magnitude
        have unsigned : d ≠ 45 := by
          rintro rfl
          rw [← head] at digitC
          exact absurd digitC (by decide)
        simp only [if_neg unsigned, magnitude, gt_iff_lt, UInt64.lt_iff_toNat_lt, half, cast]
        rw [if_neg (by omega), Option.some_inj, ← Int64.toInt_inj, toInt_toInt64, cast,
          if_pos (by omega)]
        omega

/-- The integers that `string2ll` accepts are exactly those in the form `str` writes. -/
theorem string2ll_eq_some {s : Bytes} {n : Int64} : string2ll s = some n ↔ s = str n := by
  constructor
  · exact eq_str_of_string2ll
  · rintro rfl
    exact string2ll_str n

end Vcdb
