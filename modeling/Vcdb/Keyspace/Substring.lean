import Vcdb.Keyspace.BitArray

/-!
# Parts of strings

GETRANGE counts positions in 64 bits, with and without sign; none of its steps wraps around.
-/

namespace Vcdb

/-! ### The reference -/

/-- The first position asked for; negative ones count from the end. -/
def sliceStart (n : Nat) (start : Int) : Int := max 0 (if start < 0 then n + start else start)

/-- The last position asked for, within the string. -/
def sliceStop (n : Nat) (stop : Int) : Int :=
  min (n - 1) (max 0 (if stop < 0 then n + stop else stop))

/-- Nothing is asked for. -/
def SliceEmpty (n : Nat) (start stop : Int) : Prop :=
  n = 0 ∨ sliceStop n stop < sliceStart n start ∨ start < 0 ∧ stop < 0 ∧ stop < start

instance (n : Nat) (start stop : Int) : Decidable (SliceEmpty n start stop) :=
  inferInstanceAs (Decidable (_ ∨ _ ∨ _))

/-- The bytes from the first to the last position. -/
def slice (val : Bytes) (start stop : Int) : Bytes :=
  if SliceEmpty val.length start stop then []
  else
    (val.drop (sliceStart val.length start).toNat).take
      (sliceStop val.length stop - sliceStart val.length start + 1).toNat

/-! ### The steps of the code -/

/-- A position counted from the start. -/
def fromStart (strlen : UInt64) (position : Int64) : Int64 :=
  if position < 0 then (strlen + position.toUInt64).toInt64 else position

def raised (position : Int64) : Int64 := if position < 0 then 0 else position

def lowered (strlen : UInt64) (position : Int64) : Int64 :=
  if strlen ≤ position.toUInt64 then (strlen - 1).toInt64 else position

section Steps

variable {val : Bytes} (small : val.length < 2 ^ 63)

include small

theorem toInt_fromStart (position : Int64) :
    (fromStart (stringSize val) position).toInt =
      if position.toInt < 0 then val.length + position.toInt else position.toInt := by
  have size := toNat_stringSize small
  have lower := position.le_toInt
  rw [fromStart, ite_cond_congr (propext (toInt_lt_zero position))]
  split_ifs with negative
  · have wrapped : (position.toUInt64.toNat : Int) = position.toInt + 2 ^ 64 := by
      have split := toInt_toInt64 position.toUInt64
      rw [show position.toUInt64.toInt64 = position from rfl] at split
      split_ifs at split <;> omega
    rw [toInt_toInt64, UInt64.toNat_add, size]
    split_ifs <;> omega
  · rfl

omit small in
theorem toInt_raised (position : Int64) : (raised position).toInt = max 0 position.toInt := by
  rw [raised, ite_cond_congr (propext (toInt_lt_zero position))]
  split_ifs with negative
  · exact (max_eq_left negative.le).symm
  · exact (max_eq_right (not_lt.mp negative)).symm

theorem toInt_lowered {position : Int64} (nonneg : 0 ≤ position.toInt) :
    (lowered (stringSize val) position).toInt = min ((val.length : Int) - 1) position.toInt := by
  have size := toNat_stringSize small
  have unsigned := toNat_toUInt64 nonneg
  have beyond : stringSize val ≤ position.toUInt64 ↔ (val.length : Int) ≤ position.toInt := by
    rw [UInt64.le_iff_toNat_le, size]
    omega
  rw [lowered, ite_cond_congr (propext beyond)]
  split_ifs with far
  · rw [toInt_toInt64, UInt64.toNat_sub, size, UInt64.toNat_one]
    split_ifs <;> omega
  · omega

end Steps

/-- Every value on the way to a slice is the one that whole numbers would give, and what is read
lies within the string. -/
structure StepsExact (val : Bytes) (start stop : Int64) : Prop where
  startFromStart : start < 0 →
    (stringSize val + start.toUInt64).toInt64.toInt = val.length + start.toInt
  stopFromStart : stop < 0 →
    (stringSize val + stop.toUInt64).toInt64.toInt = val.length + stop.toInt
  stopUnsigned : ((raised (fromStart (stringSize val) stop)).toUInt64.toNat : Int) =
    (raised (fromStart (stringSize val) stop)).toInt
  lastPosition : (stringSize val - 1).toInt64.toInt = val.length - 1
  first : (raised (fromStart (stringSize val) start)).toInt = sliceStart val.length start.toInt
  last : (lowered (stringSize val) (raised (fromStart (stringSize val) stop))).toInt =
    sliceStop val.length stop.toInt
  count : ¬SliceEmpty val.length start.toInt stop.toInt →
    (lowered (stringSize val) (raised (fromStart (stringSize val) stop)) -
        raised (fromStart (stringSize val) start) + 1).toInt =
      sliceStop val.length stop.toInt - sliceStart val.length start.toInt + 1
  inside : ¬SliceEmpty val.length start.toInt stop.toInt →
    0 ≤ sliceStart val.length start.toInt ∧
      sliceStart val.length start.toInt ≤ sliceStop val.length stop.toInt ∧
      sliceStop val.length stop.toInt < val.length

theorem stepsExact {val : Bytes} (small : val.length < 2 ^ 63) (start stop : Int64) :
    StepsExact val start stop := by
  have size := toNat_stringSize small
  have fromEnd : ∀ position : Int64, position < 0 →
      (stringSize val + position.toUInt64).toInt64.toInt = val.length + position.toInt := by
    intro position negative
    have exact := toInt_fromStart small position
    rw [fromStart, if_pos negative, if_pos ((toInt_lt_zero position).mp negative)] at exact
    exact exact
  have first : (raised (fromStart (stringSize val) start)).toInt =
      sliceStart val.length start.toInt := by
    rw [toInt_raised, toInt_fromStart small, sliceStart]
  have raisedStop := toInt_raised (fromStart (stringSize val) stop)
  have nonneg : 0 ≤ (raised (fromStart (stringSize val) stop)).toInt := by
    rw [raisedStop]
    exact le_max_left _ _
  have unsigned : ((raised (fromStart (stringSize val) stop)).toUInt64.toNat : Int) =
      (raised (fromStart (stringSize val) stop)).toInt := by
    exact toNat_toUInt64 nonneg
  have last : (lowered (stringSize val) (raised (fromStart (stringSize val) stop))).toInt =
      sliceStop val.length stop.toInt := by
    rw [toInt_lowered small nonneg, raisedStop, toInt_fromStart small, sliceStop]
  have inside : ¬SliceEmpty val.length start.toInt stop.toInt →
      0 ≤ sliceStart val.length start.toInt ∧
        sliceStart val.length start.toInt ≤ sliceStop val.length stop.toInt ∧
        sliceStop val.length stop.toInt < val.length := by
    intro nonempty
    rw [SliceEmpty, not_or, not_or, not_lt] at nonempty
    refine ⟨le_max_left _ _, nonempty.2.1, ?_⟩
    have upper : sliceStop val.length stop.toInt ≤ val.length - 1 := min_le_left _ _
    omega
  refine ⟨fromEnd start, fromEnd stop, unsigned, ?_, first, last, fun nonempty => ?_, inside⟩
  · rw [toInt_toInt64, UInt64.toNat_sub, size, UInt64.toNat_one]
    split_ifs <;> omega
  · obtain ⟨low, order, high⟩ := inside nonempty
    have difference := @toInt_sub_of_range
      (lowered (stringSize val) (raised (fromStart (stringSize val) stop)))
      (raised (fromStart (stringSize val) start)) (by omega) (by omega)
    rw [toInt_add_of_range] <;> rw [difference, first, last, toInt_one]
    · omega
    · omega

section Commands

variable {world : World} {key : Bytes} {old : Option Bytes}

theorem getrange_eq (key : Bytes) (start stop : Int64) :
    getrange key start stop = Kv.get key >>= fun got =>
      if got.1 < 0 then pure (.error got.1)
      else if start < 0 ∧ stop < 0 ∧ stop < start then pure (.ok [])
      else
        let strlen := stringSize got.2
        let first := raised (fromStart strlen start)
        let last := lowered strlen (raised (fromStart strlen stop))
        if last < first ∨ strlen = 0 then pure (.ok [])
        else pure (.ok ((got.2.drop first.toInt.toNat).take (last - first + 1).toInt.toNat)) := rfl

/-- GETRANGE delivers the slice of the string, or of the empty string when there is none. -/
theorem eval_getrange (found : storedString world.db key = .ok old)
    (small : (old.getD []).length < 2 ^ 63) (start stop : Int64) :
    (getrange key start stop).eval atomically world =
      (.ok (slice (old.getD []) start.toInt stop.toInt), world) := by
  have exact := stepsExact small start stop
  have nonneg : ¬(if old.isSome then (1 : Int) else 0) < 0 := by
    split_ifs <;> decide
  have zero : stringSize (old.getD []) = 0 ↔ (old.getD []).length = 0 := by
    rw [← UInt64.toNat_inj, toNat_stringSize small]
    rfl
  have backward : (start < 0 ∧ stop < 0 ∧ stop < start) ↔
      start.toInt < 0 ∧ stop.toInt < 0 ∧ stop.toInt < start.toInt := by
    rw [toInt_lt_zero, toInt_lt_zero, Int64.lt_iff_toInt_lt]
  have beyond : lowered (stringSize (old.getD []))
        (raised (fromStart (stringSize (old.getD [])) stop)) <
      raised (fromStart (stringSize (old.getD [])) start) ↔
      sliceStop (old.getD []).length stop.toInt <
        sliceStart (old.getD []).length start.toInt := by
    rw [Int64.lt_iff_toInt_lt, exact.first, exact.last]
  rw [getrange_eq, Program.eval_bind, eval_kvGet found]
  simp only [if_neg nonneg, backward, beyond, zero]
  rw [slice]
  by_cases reversed : start.toInt < 0 ∧ stop.toInt < 0 ∧ stop.toInt < start.toInt
  · have empty : SliceEmpty (old.getD []).length start.toInt stop.toInt := Or.inr (Or.inr reversed)
    rw [if_pos reversed, if_pos empty]
    rfl
  · rw [if_neg reversed]
    by_cases nothing : sliceStop (old.getD []).length stop.toInt <
        sliceStart (old.getD []).length start.toInt ∨ (old.getD []).length = 0
    · have empty : SliceEmpty (old.getD []).length start.toInt stop.toInt :=
        nothing.elim (fun crossed => Or.inr (Or.inl crossed)) Or.inl
      rw [if_pos nothing, if_pos empty]
      rfl
    · have nonempty : ¬SliceEmpty (old.getD []).length start.toInt stop.toInt := by
        rintro (zero | crossed | both)
        · exact nothing (Or.inr zero)
        · exact nothing (Or.inl crossed)
        · exact reversed both
      rw [if_neg nothing, if_neg nonempty, exact.first, exact.count nonempty]
      rfl

/-- GETRANGE replies the slice of the string, whatever the positions are, and changes nothing;
none of its steps goes wrong. A string is shorter than its largest size, `2 ^ 63 - 1`. -/
theorem procGetrange_slice (world : World) (key : Bytes) {old : Option Bytes}
    (found : storedString world.db key = .ok old) (small : (old.getD []).length < 2 ^ 63)
    (start stop : Int64) :
    (getrange key start stop).eval atomically world =
        (.ok (slice (old.getD []) start.toInt stop.toInt), world) ∧
      StepsExact (old.getD []) start stop ∧
      ∀ first last, int64Argument first = some start → int64Argument last = some stop →
        (procGetrange key first last).eval atomically world =
          (.bulk (slice (old.getD []) start.toInt stop.toInt), world) := by
  have run := eval_getrange found small start stop
  refine ⟨run, stepsExact small start stop, fun first last hfirst hlast => ?_⟩
  simp only [procGetrange, hfirst, hlast, Program.eval_bind, run]
  rfl

/-- From the smallest position to the last letter of `ab`. -/
theorem procGetrange_slice_letters :
    (getrange [107] Int64.minValue (-1)).eval atomically (stringWorld [107] [97, 98]) =
        (.ok (slice [97, 98] Int64.minValue.toInt (-1 : Int64).toInt),
          stringWorld [107] [97, 98]) ∧
      StepsExact [97, 98] Int64.minValue (-1) ∧
      ∀ first last, int64Argument first = some Int64.minValue → int64Argument last = some (-1) →
        (procGetrange [107] first last).eval atomically (stringWorld [107] [97, 98]) =
          (.bulk (slice [97, 98] Int64.minValue.toInt (-1 : Int64).toInt),
            stringWorld [107] [97, 98]) :=
  procGetrange_slice _ _ (storedString_stringWorld [107] [97, 98]) (by decide) _ _

end Commands

end Vcdb
