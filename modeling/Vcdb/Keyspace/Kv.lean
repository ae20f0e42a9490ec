import Vcdb.Keyspace.Collection
import Vcdb.Proc.Kv

/-!
# Strings as clients see them

What is stored as the string of a key, and what the commands that rewrite it make of it.
-/

namespace Vcdb

/-- What reading the metadata record of a string gives. -/
def kvRead : Option Bytes → Int × KvMetaVal
  | none => (0, .fresh)
  | some metaVal =>
      match KvMetaVal.decodeMetaVal metaVal with
      | .error code => (code, .fresh)
      | .ok kv =>
          if kv.del = keyDeleteMask then
            (0, { kv with
              version := nextVersion kv.version, del := keyEnabledMask, type := DataType.kv })
          else (1, kv)

/-- The string under a key, or the error that every command on strings reports for it. -/
def storedString (db : DB) (key : Bytes) : Except Int (Option Bytes) :=
  let (ret, kv) := kvRead (db.get (encodeMetaKey key))
  if ret < 0 then .error ret else .ok (if ret = 0 then none else some kv.value)

/-- Every record but one is as before. -/
def OnlyChanges (touched : Bytes → Prop) (before after : DB) : Prop :=
  ∀ record, ¬touched record → after.get record = before.get record

/-- The string under a key has been replaced and nothing else has been touched. -/
def Rewritten (before after : DB) (key val : Bytes) : Prop :=
  storedString after key = .ok (some val) ∧ OnlyChanges (· = encodeMetaKey key) before after

theorem kvRead_cases (metaVal : Option Bytes) :
    (kvRead metaVal).1 < 0 ∨ (kvRead metaVal).1 = 0 ∨ (kvRead metaVal).1 = 1 := by
  cases metaVal with
  | none => exact Or.inr (Or.inl rfl)
  | some metaVal =>
      rw [kvRead]
      cases decoded : KvMetaVal.decodeMetaVal metaVal with
      | error code =>
          left
          rw [KvMetaVal.decodeMetaVal] at decoded
          split at decoded
          · obtain rfl := Except.error.inj decoded
            decide
          · split_ifs at decoded
            obtain rfl := Except.error.inj decoded
            decide
      | ok kv =>
          simp only
          split_ifs
          · exact Or.inr (Or.inl rfl)
          · exact Or.inr (Or.inr rfl)

section Evaluation

variable (world : World) (key : Bytes)

theorem eval_getKvMetaVal (metaKey : Bytes) :
    (getKvMetaVal metaKey).eval atomically world = (kvRead (world.db.get metaKey), world) := by
  have read : (dbGet metaKey).eval atomically world =
      (ReadStatus.ofOption (world.db.get metaKey), world) := rfl
  rw [getKvMetaVal, Program.eval_bind, read]
  cases world.db.get metaKey with
  | none => rfl
  | some metaVal =>
      simp only [ReadStatus.ofOption, kvRead]
      cases KvMetaVal.decodeMetaVal metaVal with
      | error code => rfl
      | ok kv =>
          simp only [Program.eval_ite, Program.pure_eq_done, Program.eval_done]
          split_ifs <;> rfl

/-- The world after one record has been put. -/
def World.putRecord (record val : Bytes) : World :=
  world.withDB (world.db.put record val)

theorem storedString_put (db : DB) (val : Bytes) (version : UInt16) :
    storedString (db.put (encodeMetaKey key) (encodeKvVal val version)) key = .ok (some val) := by
  have enabled : ¬keyEnabledMask = keyDeleteMask := enabled_ne_delete
  simp [storedString, kvRead, KvMetaVal.decodeMetaVal_encode, enabled]

theorem rewritten_put (val : Bytes) (version : UInt16) :
    Rewritten world.db (world.putRecord (encodeMetaKey key) (encodeKvVal val version)).db key
      val := by
  refine ⟨storedString_put key world.db val version, fun record other => ?_⟩
  show (world.db.put _ _).get record = _
  rw [SortedMap.get_put, if_neg other]

/-- A command that rewrites a string reports the error of reading it, or its own, or puts the new
string in the old one's place. -/
theorem eval_updateKvCommon {ν : Type} (newVal : KvMetaVal → Int → Except Int (Bytes × ν)) :
    (updateKvCommon key newVal).eval atomically world =
      let (ret, kv) := kvRead (world.db.get (encodeMetaKey key))
      if ret < 0 then (.error ret, world)
      else
        match newVal kv ret with
        | .error code => (.error code, world)
        | .ok (val, result) =>
            (.ok result, world.putRecord (encodeMetaKey key) (encodeKvVal val kv.version)) := by
  simp only [updateKvCommon, eval_recordKeyLock, Program.eval_bind, eval_getKvMetaVal,
    Program.eval_ite, Program.pure_eq_done, Program.eval_done]
  split_ifs
  · rfl
  · cases newVal (kvRead (world.db.get (encodeMetaKey key))).2
        (kvRead (world.db.get (encodeMetaKey key))).1 <;> rfl

end Evaluation

/-! ### SETRANGE -/

theorem toNat_stringSize {s : Bytes} (small : s.length < 2 ^ 63) :
    (stringSize s).toNat = s.length := by
  rw [stringSize, UInt64.toNat_ofNat_of_lt']
  rw [UInt64.size]
  omega

theorem storedString_of_read {db : DB} {key : Bytes} {ret : Int} {kv : KvMetaVal}
    (read : kvRead (db.get (encodeMetaKey key)) = (ret, kv)) :
    storedString db key =
      if ret < 0 then .error ret else .ok (if ret = 0 then none else some kv.value) := by
  rw [storedString, read]

/-- A world that holds one string. -/
def stringWorld (key val : Bytes) : World where
  db := SortedMap.put ∅ (encodeMetaKey key) (encodeKvVal val 0)
  expiration := {}
  cursors := ∅
  clock _ := 0
  random _ := 0

theorem storedString_stringWorld (key val : Bytes) :
    storedString (stringWorld key val).db key = .ok (some val) :=
  storedString_put key ∅ val 0

end Vcdb
