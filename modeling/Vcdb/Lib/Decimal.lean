import Mathlib.Tactic.Ring
import Mathlib.Tactic.IntervalCases
import Mathlib.Data.List.Induction

/-!
# Decimal numerals

Numerals over the ASCII digits.  Among the digit strings of a bounded length, those that do not
start with a zero are exactly the numerals of the positive numbers.
-/

namespace Decimal

/-- The ASCII digit of a number below ten. -/
def digit (n : Nat) : UInt8 := UInt8.ofNat (48 + n)

def IsDigit (c : UInt8) : Prop := 48 ≤ c ∧ c ≤ 57

instance (c : UInt8) : Decidable (IsDigit c) := inferInstanceAs (Decidable (48 ≤ c ∧ c ≤ 57))

/-- The number a digit stands for. -/
def digitValue (c : UInt8) : Nat := c.toNat - 48

/-- The number a digit string stands for. -/
def value (digits : List UInt8) : Nat :=
  digits.foldl (fun total c => total * 10 + digitValue c) 0

/-- The numeral of a number with at most `width` digits. -/
def numeral : Nat → Nat → List UInt8
  | 0, _ => []
  | width + 1, n => if n < 10 then [digit n] else numeral width (n / 10) ++ [digit (n % 10)]

theorem isDigit_digit {n : Nat} (small : n < 10) : IsDigit (digit n) := by
  interval_cases n <;> decide

theorem digitValue_digit {n : Nat} (small : n < 10) : digitValue (digit n) = n := by
  interval_cases n <;> decide

theorem digitValue_lt {c : UInt8} (isDigit : IsDigit c) : digitValue c < 10 := by
  have upper : c.toNat ≤ 57 := isDigit.2
  unfold digitValue
  omega

theorem digit_digitValue {c : UInt8} (isDigit : IsDigit c) : digit (digitValue c) = c := by
  have lower : 48 ≤ c.toNat := isDigit.1
  rw [← UInt8.toNat_inj, digit, digitValue, UInt8.toNat_ofNat']
  have upper := c.toNat_lt
  omega

theorem value_append (digits : List UInt8) (c : UInt8) :
    value (digits ++ [c]) = value digits * 10 + digitValue c := by
  simp [value]

theorem value_numeral {width n : Nat} (small : n < 10 ^ width) (positive : 0 < width) :
    value (numeral width n) = n := by
  induction width generalizing n with
  | zero => omega
  | succ width ih =>
      unfold numeral
      split_ifs with single
      · simp [value, digitValue_digit single]
      · have widthPositive : 0 < width := by
          rcases Nat.eq_zero_or_pos width with rfl | positive
          · simp at small
            omega
          · exact positive
        rw [value_append, ih (by rw [pow_succ] at small; omega) widthPositive,
          digitValue_digit (Nat.mod_lt _ (by decide))]
        omega

theorem isDigit_of_mem_numeral {width n : Nat} {c : UInt8} (mem : c ∈ numeral width n) :
    IsDigit c := by
  induction width generalizing n with
  | zero => simp [numeral] at mem
  | succ width ih =>
      unfold numeral at mem
      split_ifs at mem with single
      · rw [List.mem_singleton] at mem
        exact mem ▸ isDigit_digit single
      · rcases List.mem_append.mp mem with mem | mem
        · exact ih mem
        · rw [List.mem_singleton] at mem
          exact mem ▸ isDigit_digit (Nat.mod_lt _ (by decide))

theorem numeral_ne_nil {width n : Nat} (positive : 0 < width) : numeral width n ≠ [] := by
  cases width with
  | zero => omega
  | succ width =>
      unfold numeral
      split_ifs <;> simp

/-- A numeral of a positive number starts with a nonzero digit. -/
theorem head?_numeral {width n : Nat} (small : n < 10 ^ width) (positive : 0 < n) :
    ∃ c, (numeral width n).head? = some c ∧ IsDigit c ∧ c ≠ 48 := by
  induction width generalizing n with
  | zero => simp at small; omega
  | succ width ih =>
      unfold numeral
      split_ifs with single
      · refine ⟨digit n, rfl, isDigit_digit single, ?_⟩
        intro zero
        have := digitValue_digit single
        rw [zero] at this
        exact absurd this (by simp [digitValue]; omega)
      · obtain ⟨c, head, digitC, nonzero⟩ :=
          ih (n := n / 10) (by rw [pow_succ] at small; omega) (by omega)
        refine ⟨c, ?_, digitC, nonzero⟩
        rw [List.head?_append, head]
        rfl

theorem value_pos_of_head {c : UInt8} {digits : List UInt8} (isDigit : IsDigit c)
    (nonzero : c ≠ 48) : 0 < value (c :: digits) := by
  induction digits using List.reverseRecOn with
  | nil =>
      have lower : 48 ≤ c.toNat := isDigit.1
      have notZero : c.toNat ≠ 48 := fun eq => nonzero (UInt8.toNat_inj.mp eq)
      simp [value, digitValue]
      omega
  | append_singleton digits last ih =>
      rw [← List.cons_append, value_append]
      omega

/-- Writing the value of a digit string without leading zero gives the string back. -/
theorem numeral_value {width : Nat} {c : UInt8} {digits : List UInt8}
    (isDigit : ∀ d ∈ c :: digits, IsDigit d) (nonzero : c ≠ 48)
    (fits : digits.length < width) : numeral width (value (c :: digits)) = c :: digits := by
  induction digits using List.reverseRecOn generalizing width with
  | nil =>
      have digitC := isDigit c List.mem_cons_self
      have single : value [c] = digitValue c := by simp [value]
      cases width with
      | zero => simp at fits
      | succ width =>
          rw [single, numeral, if_pos (digitValue_lt digitC), digit_digitValue digitC]
  | append_singleton digits last ih =>
      have digitLast := isDigit last (by simp)
      have lastSmall := digitValue_lt digitLast
      have headPositive : 0 < value (c :: digits) :=
        value_pos_of_head (isDigit c List.mem_cons_self) nonzero
      cases width with
      | zero => simp at fits
      | succ width =>
          simp only [List.length_append, List.length_cons, List.length_nil] at fits
          have rest : numeral width (value (c :: digits)) = c :: digits := ih
            (fun d mem => isDigit d (by
            rw [← List.cons_append]
            exact List.mem_append_left _ mem)) (by omega)
          rw [← List.cons_append, value_append, numeral, if_neg (by omega),
            show (value (c :: digits) * 10 + digitValue last) / 10 = value (c :: digits) by omega,
            show (value (c :: digits) * 10 + digitValue last) % 10 = digitValue last by omega,
            rest, digit_digitValue digitLast]

theorem foldl_value (digits : List UInt8) (start : Nat) :
    digits.foldl (fun total c => total * 10 + digitValue c) start =
      start * 10 ^ digits.length + value digits := by
  induction digits generalizing start with
  | nil => simp [value]
  | cons c digits ih =>
      rw [value, List.foldl_cons, List.foldl_cons, ih, ih (0 * 10 + digitValue c),
        List.length_cons]
      ring

theorem value_cons (c : UInt8) (digits : List UInt8) :
    value (c :: digits) = digitValue c * 10 ^ digits.length + value digits := by
  rw [value, List.foldl_cons, foldl_value]
  simp

theorem le_value_of_head {c : UInt8} {digits : List UInt8} (isDigit : IsDigit c)
    (nonzero : c ≠ 48) : 10 ^ digits.length ≤ value (c :: digits) := by
  have lower : 48 ≤ c.toNat := isDigit.1
  have notZero : c.toNat ≠ 48 := fun eq => nonzero (UInt8.toNat_inj.mp eq)
  have one : 1 ≤ digitValue c := by unfold digitValue; omega
  rw [value_cons]
  exact (Nat.le_mul_of_pos_left _ one).trans (Nat.le_add_right _ _)

end Decimal
