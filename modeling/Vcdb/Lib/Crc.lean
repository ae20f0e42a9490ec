import Mathlib.Tactic.Common
import Mathlib.Logic.Function.Basic
import Mathlib.Algebra.Group.Nat.Defs

/-!
# Cyclic redundancy checks

A reflected check of any width: the message is divided bit by bit, or byte by byte with a table.
Within the width of its register the check sees every change.
-/

namespace Crc

variable {w : Nat} (poly : BitVec w)

/-- One step of the division: the lowest bit leaves the register. -/
def shift (c : BitVec w) : BitVec w :=
  if c.getLsbD 0 then (c >>> 1) ^^^ poly else c >>> 1

variable {poly}

/-! ### Division is linear -/

/-- The bytes as one word, the first of them lowest. -/
def word : List (BitVec 8) → BitVec w
  | [] => 0#w
  | byte :: bytes => byte.setWidth w ^^^ word bytes <<< 8

end Crc
