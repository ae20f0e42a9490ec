import Mathlib.Data.Nat.Bitwise
import Vcdb.Keyspace.Kv

/-!
# Strings as bit arrays

SETBIT and GETBIT count the bits of a byte from the most significant one.
-/

namespace Vcdb

/-- The bit at an offset, if the string reaches that far. -/
def bitAt (s : Bytes) (offset : Nat) : Bool :=
  (s.getD (offset / 8) 0).toNat.testBit (7 - offset % 8)

section Masks

theorem toNat_bitMask {i : Nat} (small : i < 8) : ((1 : UInt8) <<< UInt8.ofNat i).toNat = 2 ^ i := by
  interval_cases i <;> rfl

/-- The code numbers the bits of a byte from the least significant one. -/
theorem ofNat_bitPosition (offset : Nat) :
    7 - UInt8.ofNat (offset % 8) = UInt8.ofNat (7 - offset % 8) := by
  have small : offset % 8 < 8 := Nat.mod_lt _ (by decide)
  interval_cases offset % 8 <;> rfl

theorem and_bitMask_eq_zero_iff (byte : UInt8) {i : Nat} (small : i < 8) :
    byte &&& (1 <<< UInt8.ofNat i) = 0 ↔ byte.toNat.testBit i = false := by
  rw [← UInt8.toNat_inj, UInt8.toNat_and, toNat_bitMask small, Nat.and_two_pow]
  cases byte.toNat.testBit i <;> simp

theorem testBit_or_bitMask (byte : UInt8) {i : Nat} (small : i < 8) (j : Nat) :
    (byte ||| (1 <<< UInt8.ofNat i)).toNat.testBit j =
      if j = i then true else byte.toNat.testBit j := by
  rw [UInt8.toNat_or, toNat_bitMask small, Nat.testBit_or, Nat.testBit_two_pow]
  split_ifs with same
  · simp [same]
  · simp [Ne.symm same]

theorem testBit_and_not_bitMask (byte : UInt8) {i j : Nat} (small : i < 8) (small' : j < 8) :
    (byte &&& ~~~(1 <<< UInt8.ofNat i)).toNat.testBit j =
      if j = i then false else byte.toNat.testBit j := by
  have bound : 2 ^ i < 2 ^ 8 := Nat.pow_lt_pow_right (by decide) small
  have complement : (~~~((1 : UInt8) <<< UInt8.ofNat i)).toNat = 2 ^ 8 - (2 ^ i + 1) := by
    rw [UInt8.toNat_not, toNat_bitMask small, UInt8.size]
    omega
  rw [UInt8.toNat_and, complement, Nat.testBit_and, Nat.testBit_two_pow_sub_succ bound,
    Nat.testBit_two_pow]
  split_ifs with same
  · simp [same]
  · simp [Ne.symm same, small']

end Masks

section Writing

/-- A string with zeros behind it, if it does not reach a position. -/
def extended (s : Bytes) (len : Nat) : Bytes :=
  if s.length ≤ len then s ++ List.replicate (len + 1 - s.length) 0 else s

/-- A string with one bit set or cleared. -/
def withBit (s : Bytes) (offset : Nat) (on : Bool) : Bytes :=
  let len := offset / 8
  let mask : UInt8 := 1 <<< UInt8.ofNat (7 - offset % 8)
  let old := (extended s len).getD len 0
  (extended s len).set len (if on then old ||| mask else old &&& ~~~mask)

theorem length_extended (s : Bytes) (len : Nat) :
    (extended s len).length = max s.length (len + 1) := by
  rw [extended]
  split_ifs with short
  · rw [List.length_append, List.length_replicate]
    omega
  · omega

theorem getD_extended (s : Bytes) (len i : Nat) : (extended s len).getD i 0 = s.getD i 0 := by
  rw [extended]
  split_ifs with short
  · simp only [List.getD_eq_getElem?_getD, List.getElem?_append, List.getElem?_replicate]
    split_ifs with inside reached
    · rfl
    · simp [List.getElem?_eq_none (not_lt.mp inside)]
    · simp [List.getElem?_eq_none (not_lt.mp inside)]
  · rfl

theorem length_withBit (s : Bytes) (offset : Nat) (on : Bool) :
    (withBit s offset on).length = max s.length (offset / 8 + 1) := by
  rw [withBit, List.length_set, length_extended]

/-- One bit is as asked for, and all others as before. -/
theorem bitAt_withBit (s : Bytes) (offset other : Nat) (on : Bool) :
    bitAt (withBit s offset on) other = if other = offset then on else bitAt s other := by
  have reached : offset / 8 < (extended s (offset / 8)).length := by
    rw [length_extended]
    omega
  have small : 7 - offset % 8 < 8 := by omega
  have small' : 7 - other % 8 < 8 := by omega
  rw [bitAt, bitAt, withBit, List.getD_eq_getElem?_getD, List.getElem?_set, getD_extended]
  by_cases sameByte : offset / 8 = other / 8
  · have sameBit : 7 - other % 8 = 7 - offset % 8 ↔ other = offset := by omega
    rw [if_pos sameByte, if_pos reached, Option.getD_some, ← sameByte]
    cases on with
    | true =>
        rw [if_pos rfl, testBit_or_bitMask _ small, ite_cond_congr (propext sameBit)]
    | false =>
        rw [if_neg Bool.false_ne_true, testBit_and_not_bitMask _ small small',
          ite_cond_congr (propext sameBit)]
  · have differs : other ≠ offset := by
      rintro rfl
      exact sameByte rfl
    rw [if_neg sameByte, if_neg differs, ← List.getD_eq_getElem?_getD, getD_extended]

end Writing

section Commands

variable {world : World} {key : Bytes} {old : Option Bytes}

/-- A reply that shows a bit. -/
def replyBit (on : Bool) : Reply := .int (if on then 1 else 0)

theorem kvRead_of_storedString {db : DB} (found : storedString db key = .ok old) :
    ∃ kv, old = none ∧ kvRead (db.get (encodeMetaKey key)) = (0, kv) ∨
      old = some kv.value ∧ kvRead (db.get (encodeMetaKey key)) = (1, kv) := by
  obtain ⟨ret, kv, read⟩ : ∃ ret kv, kvRead (db.get (encodeMetaKey key)) = (ret, kv) :=
    ⟨_, _, rfl⟩
  have cases := kvRead_cases (db.get (encodeMetaKey key))
  rw [storedString_of_read read] at found
  rw [read] at cases
  refine ⟨kv, ?_⟩
  rcases cases with negative | rfl | rfl
  · rw [if_pos negative] at found
    cases found
  · exact Or.inl ⟨(Except.ok.inj found).symm, read⟩
  · exact Or.inr ⟨(Except.ok.inj found).symm, read⟩

theorem eval_kvGet (found : storedString world.db key = .ok old) :
    (Kv.get key).eval atomically world =
      ((if old.isSome then 1 else 0, old.getD []), world) := by
  obtain ⟨kv, ⟨rfl, read⟩ | ⟨rfl, read⟩⟩ := kvRead_of_storedString found
  · simp only [Kv.get, Program.eval_bind, eval_getKvMetaVal, read]
    rfl
  · simp only [Kv.get, Program.eval_bind, eval_getKvMetaVal, read]
    rfl

theorem bitOffset_eq_some {argument : Bytes} {offset : Int64} :
    bitOffset argument = some offset ↔ (string2ll argument).getD 0 = offset ∧
      ¬(offset < 0 ∨ maxPacketSize * 4 ≤ offset.toInt.toNat / 8) := by
  rw [bitOffset]
  split_ifs with refused
  · simp only [false_iff, not_and, not_not]
    rintro rfl
    exact refused
  · rw [Option.some_inj]
    constructor
    · rintro rfl
      exact ⟨rfl, refused⟩
    · exact fun same => same.1

/-- GETBIT tells the bit and changes nothing. -/
theorem eval_procGetbit (found : storedString world.db key = .ok old) {argument : Bytes}
    {offset : Int64} (accepted : bitOffset argument = some offset) :
    (procGetbit key argument).eval atomically world =
      (replyBit (bitAt (old.getD []) offset.toInt.toNat), world) := by
  have bound : 7 - offset.toInt.toNat % 8 < 8 := by omega
  have beyond : (old.getD []).length ≤ offset.toInt.toNat / 8 →
      bitAt (old.getD []) offset.toInt.toNat = false := by
    intro short
    rw [bitAt, List.getD_eq_default _ _ short]
    exact Nat.zero_testBit _
  simp only [procGetbit, accepted, getbit, Program.eval_bind, eval_kvGet found, ofNat_bitPosition,
    and_bitMask_eq_zero_iff _ bound]
  cases old with
  | none =>
      rw [beyond (Nat.zero_le _)]
      rfl
  | some val =>
      simp only [Option.isSome_some, if_true, Option.getD_some] at beyond ⊢
      rw [if_neg (by decide), if_neg one_ne_zero]
      by_cases short : val.length ≤ offset.toInt.toNat / 8
      · rw [if_pos short, beyond short]
        rfl
      · simp only [if_neg short, Program.pure_eq_done, Program.eval_done]
        split_ifs with clear
        · rw [show bitAt val offset.toInt.toNat = false from clear]
          rfl
        · rw [show bitAt val offset.toInt.toNat = true from Bool.eq_true_of_not_eq_false clear]
          rfl

theorem setbit_eq (key : Bytes) (offset : Int64) (on : Int) :
    setbit key offset on = updateKvCommon key fun kv ret =>
      let val := if ret = 0 then [] else kv.value
      .ok (withBit val offset.toInt.toNat (on = 1),
        (extended val (offset.toInt.toNat / 8)).getD (offset.toInt.toNat / 8) 0 &&&
          (1 <<< UInt8.ofNat (7 - offset.toInt.toNat % 8))) := by
  simp only [setbit, ofNat_bitPosition, withBit, extended, decide_eq_true_eq]

/-- A bit is replaced by another one, and told as it was. -/
theorem eval_setbit (found : storedString world.db key = .ok old) (offset : Int64) (on : Int) :
    ∃ version res, (setbit key offset on).eval atomically world = (.ok res,
        world.putRecord (encodeMetaKey key)
          (encodeKvVal (withBit (old.getD []) offset.toInt.toNat (on = 1)) version)) ∧
      (res = 0 ↔ bitAt (old.getD []) offset.toInt.toNat = false) := by
  have bound : 7 - offset.toInt.toNat % 8 < 8 := by omega
  have told := and_bitMask_eq_zero_iff ((extended (old.getD []) (offset.toInt.toNat / 8)).getD
    (offset.toInt.toNat / 8) 0) bound
  have same := getD_extended (old.getD []) (offset.toInt.toNat / 8) (offset.toInt.toNat / 8)
  rw [bitAt, ← same]
  obtain ⟨kv, ⟨rfl, read⟩ | ⟨rfl, read⟩⟩ := kvRead_of_storedString found
  · refine ⟨kv.version, _, ?_, told⟩
    rw [setbit_eq, eval_updateKvCommon, read]
    rfl
  · refine ⟨kv.version, _, ?_, told⟩
    rw [setbit_eq, eval_updateKvCommon, read]
    rfl

theorem eval_procSetbit (found : storedString world.db key = .ok old) {argument bit : Bytes}
    {offset : Int64} (accepted : bitOffset argument = some offset)
    (isBit : (strToInt bit 0).1 &&& ~~~1 = 0) :
    ∃ version, (procSetbit key argument bit).eval atomically world =
      (replyBit (bitAt (old.getD []) offset.toInt.toNat),
        world.putRecord (encodeMetaKey key) (encodeKvVal (withBit (old.getD []) offset.toInt.toNat
          ((strToInt bit 0).1.toInt = 1)) version)) := by
  obtain ⟨same, inRange⟩ := bitOffset_eq_some.mp accepted
  obtain ⟨version, res, run, told⟩ := eval_setbit found offset (strToInt bit 0).1.toInt
  refine ⟨version, ?_⟩
  simp only [procSetbit, same, isBit, ne_eq, not_true_eq_false, if_false, if_neg inRange,
    Program.eval_bind, run, told, Program.pure_eq_done, Program.eval_done, replyBit]
  cases bitAt (old.getD []) offset.toInt.toNat <;> rfl

/-- A bit that is accepted is zero or one. -/
theorem zero_or_one_of_isBit {on : Int32} (isBit : on &&& ~~~1 = 0) : on = 0 ∨ on = 1 := by
  have mask : (~~~(1 : Int32)).toBitVec.toNat = 2 ^ 32 - 2 := by decide
  have bits : on.toBitVec.toNat &&& (2 ^ 32 - 2) = 0 := by
    have whole := congrArg (fun n : Int32 => n.toBitVec.toNat) isBit
    simp only [Int32.toBitVec_and, BitVec.toNat_and, mask] at whole
    exact whole
  have high : on.toBitVec.toNat / 2 % 2 ^ 31 = 0 := by
    calc
      on.toBitVec.toNat / 2 % 2 ^ 31 = on.toBitVec.toNat >>> 1 &&& (2 ^ 31 - 1) := by
        rw [Nat.and_two_pow_sub_one_eq_mod]
        rfl
      _ = (on.toBitVec.toNat &&& (2 ^ 32 - 2)) >>> 1 := by
        rw [Nat.shiftRight_and_distrib]
        rfl
      _ = 0 := by
        rw [bits]
        rfl
  have small := on.toBitVec.isLt
  rcases (by omega : on.toBitVec.toNat = 0 ∨ on.toBitVec.toNat = 1) with none | one
  · exact Or.inl (Int32.toBitVec_inj.mp (BitVec.eq_of_toNat_eq none))
  · exact Or.inr (Int32.toBitVec_inj.mp (BitVec.eq_of_toNat_eq one))

theorem offset_eq_iff {argument argument' : Bytes} {offset offset' : Int64}
    (accepted : bitOffset argument = some offset) (accepted' : bitOffset argument' = some offset') :
    offset'.toInt.toNat = offset.toInt.toNat ↔ offset' = offset := by
  have nonneg : ∀ {argument : Bytes} {offset : Int64}, bitOffset argument = some offset →
      0 ≤ offset.toInt := by
    intro argument offset accepted
    have inRange := (bitOffset_eq_some.mp accepted).2
    rw [not_or, toInt_lt_zero] at inRange
    exact not_lt.mp inRange.1
  have first := nonneg accepted
  have second := nonneg accepted'
  rw [← Int64.toInt_inj]
  omega

/-- SETBIT tells the old bit and sets the new one, which GETBIT tells afterwards; at every other
offset GETBIT tells what it told before. -/
theorem procSetbit_bitArray (world : World) (key : Bytes) {old : Option Bytes}
    (found : storedString world.db key = .ok old) {argument bit : Bytes} {offset : Int64}
    (accepted : bitOffset argument = some offset) (isBit : (strToInt bit 0).1 &&& ~~~1 = 0) :
    ((strToInt bit 0).1 = 0 ∨ (strToInt bit 0).1 = 1) ∧
    ∃ after new,
      (procSetbit key argument bit).eval atomically world =
        (replyBit (bitAt (old.getD []) offset.toInt.toNat), after) ∧
      Rewritten world.db after.db key new ∧
      new.length = max (old.getD []).length (offset.toInt.toNat / 8 + 1) ∧
      ∀ argument' offset', bitOffset argument' = some offset' →
        ((procGetbit key argument').eval atomically world).1 =
            replyBit (bitAt (old.getD []) offset'.toInt.toNat) ∧
          ((procGetbit key argument').eval atomically after).1 =
            if offset' = offset then replyBit ((strToInt bit 0).1 = 1)
            else ((procGetbit key argument').eval atomically world).1 := by
  obtain ⟨version, run⟩ := eval_procSetbit found accepted isBit
  refine ⟨zero_or_one_of_isBit isBit, _, _, run, rewritten_put world key _ version,
    length_withBit _ _ _, fun argument' offset' accepted' => ?_⟩
  have written := storedString_put key world.db (withBit (old.getD []) offset.toInt.toNat
    ((strToInt bit 0).1.toInt = 1)) version
  have before := eval_procGetbit found accepted'
  have after := @eval_procGetbit (world.putRecord (encodeMetaKey key) _) key _ written _ _ accepted'
  have one : (strToInt bit 0).1.toInt = 1 ↔ (strToInt bit 0).1 = 1 :=
    @Int32.toInt_inj (strToInt bit 0).1 1
  rw [before, after]
  refine ⟨rfl, ?_⟩
  simp only [Option.getD_some, bitAt_withBit, offset_eq_iff accepted accepted', one]
  split_ifs <;> rfl

/-- Clearing the second bit of the letter `a`. -/
theorem procSetbit_bitArray_letter :
    ((strToInt [48] 0).1 = 0 ∨ (strToInt [48] 0).1 = 1) ∧
    ∃ after new,
      (procSetbit [107] [49] [48]).eval atomically (stringWorld [107] [97]) =
        (replyBit (bitAt ((some [97]).getD []) (1 : Int64).toInt.toNat), after) ∧
      Rewritten (stringWorld [107] [97]).db after.db [107] new ∧
      new.length = max ((some [97]).getD []).length ((1 : Int64).toInt.toNat / 8 + 1) ∧
      ∀ argument' offset', bitOffset argument' = some offset' →
        ((procGetbit [107] argument').eval atomically (stringWorld [107] [97])).1 =
            replyBit (bitAt ((some [97]).getD []) offset'.toInt.toNat) ∧
          ((procGetbit [107] argument').eval atomically after).1 =
            if offset' = 1 then replyBit ((strToInt [48] 0).1 = 1)
            else ((procGetbit [107] argument').eval atomically (stringWorld [107] [97])).1 :=
  procSetbit_bitArray _ _ (storedString_stringWorld [107] [97]) (by decide +kernel)
    (by decide +kernel)

end Commands

end Vcdb
