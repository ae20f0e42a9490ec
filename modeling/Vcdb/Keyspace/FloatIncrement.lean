import Vcdb.Keyspace.Increment
import Mathlib.Data.Rat.Defs
import Mathlib.Algebra.Order.Field.Rat
import Mathlib.Algebra.Order.Group.Abs
import Mathlib.Tactic.Linarith

/-!
# Floating-point increments

With exact numbers in the place of floating-point ones, the guards against overflow compare an
increment to what is left up to a limit, on the side of the positive numbers.  On the other side
they refuse every increment.
-/

namespace Vcdb

/-- Exact numbers, read and written in any way, with the limits of the extended type. -/
def LongDoubleUnit.exact (read : Bytes → Option ℚ) (write : ℚ → Bytes) : LongDoubleUnit where
  LongDouble := ℚ
  add x y := x + y
  sub x y := x - y
  lt x y := x < y
  zero := 0
  min := 1 / 2 ^ 16382
  max := (2 ^ 64 - 1) * 2 ^ 16320
  isNan _ := false
  isInf _ := false
  bytesLongDouble := read
  str := write

/-- The largest number of the double type. -/
def dblMax : ℚ := (2 ^ 53 - 1) * 2 ^ 971

/-- What the guards of the source test. -/
def guarded (lower upper by' old : ℚ) : Prop :=
  by' < 0 ∧ old < 0 ∧ by' < lower - old ∨ 0 < by' ∧ 0 < old ∧ upper - old < by'

section Guards

variable {lower upper by' old : ℚ}

end Guards

section Commands

variable {read : Bytes → Option ℚ} {write : ℚ → Bytes}

end Commands

section Evaluation

variable (float : LongDoubleUnit)

variable {world : World} {argument : Bytes} {by' : float.LongDouble}
  (accepted : float.bytesLongDouble argument = some by')

include accepted

end Evaluation

section Exact

variable {read : Bytes → Option ℚ} {write : ℚ → Bytes} {world : World} {argument : Bytes} {by' : ℚ}

variable (accepted : read argument = some by')

include accepted

end Exact

section Samples

end Samples

end Vcdb
