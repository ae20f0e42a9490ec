import Vcdb.Keyspace.Hash
import Vcdb.Keyspace.Kv
import Vcdb.Keyspace.RestoreWrite

/-!
# Integer increments

Strings and hash fields are incremented by the same guarded addition.  What it is given differs:
a decrement negates its amount in 64 bits first.
-/

namespace Vcdb

/-- What incrementing a stored text is for: a missing text counts as zero, the sum is stored and
returned where it fits 64 bits, and nothing is changed otherwise. -/
noncomputable def IncrementMeets (stored : DB → Except Int (Option Bytes)) (touched : Bytes → Prop)
    (amount : Int) (world : World) (outcome : Reply × World) : Prop :=
  match stored world.db with
  | .error code => outcome = (.error code, world)
  | .ok old =>
      match old.elim (some 0) textInteger with
      | none => outcome = (.error invalidInt, world)
      | some n =>
          if -2 ^ 63 ≤ n + amount ∧ n + amount < 2 ^ 63 then
            outcome.1 = .int (n + amount) ∧
              stored outcome.2.db = .ok (some (str (Int64.ofInt (n + amount)))) ∧
              OnlyChanges touched world.db outcome.2.db
          else outcome = (.error intOverflow, world)

/-- The guarded addition, with what it is given for a missing text. -/
theorem incrInteger_elim (by' : Int64) (old : Option Bytes) :
    incrInteger by' (old.getD []) (if old.isSome then 1 else 0) =
      match old.elim (some 0) textInteger with
      | none => .error invalidInt
      | some n =>
          if -2 ^ 63 ≤ n + by'.toInt ∧ n + by'.toInt < 2 ^ 63 then
            .ok (Int64.ofInt (n + by'.toInt))
          else .error intOverflow := by
  cases old with
  | some text => exact incrInteger_eq by' text
  | none =>
      have lower := by'.le_toInt
      have upper := by'.toInt_lt
      simp only [Option.getD_none, Option.isSome_none, Option.elim_none, Bool.false_eq_true,
        if_false, zero_add]
      rw [if_pos ⟨lower, upper⟩, Int64.ofInt_toInt]
      rfl

theorem bounds_of_textInteger {old : Option Bytes} {n : Int}
    (number : old.elim (some 0) textInteger = some n) : -2 ^ 63 ≤ n ∧ n < 2 ^ 63 := by
  cases old with
  | none =>
      obtain rfl := Option.some_inj.mp number
      decide
  | some text =>
      rw [Option.elim_some, textInteger_eq] at number
      obtain ⟨value, _, rfl⟩ := Option.map_eq_some_iff.mp number
      exact ⟨value.le_toInt, value.toInt_lt⟩

/-! ### Strings -/

theorem eval_incr (world : World) (key : Bytes) (by' : Int64) :
    (incr key by').eval atomically world =
      match storedString world.db key with
      | .error code => (.error code, world)
      | .ok old =>
          match incrInteger by' (old.getD []) (if old.isSome then 1 else 0) with
          | .error code => (.error code, world)
          | .ok new =>
              (.ok new, world.putRecord (encodeMetaKey key)
                (encodeKvVal (str new) (kvRead (world.db.get (encodeMetaKey key))).2.version)) := by
  obtain ⟨ret, kv, read⟩ : ∃ ret kv, kvRead (world.db.get (encodeMetaKey key)) = (ret, kv) :=
    ⟨_, _, rfl⟩
  have found := storedString_of_read read
  have cases := kvRead_cases (world.db.get (encodeMetaKey key))
  rw [incr, eval_updateKvCommon, read, found]
  rw [read] at cases
  rcases cases with negative | zero | one
  · simp only [if_pos negative]
  · subst zero
    simp only [lt_irrefl, if_false, if_true, Option.getD_none, Option.isSome_none,
      Bool.false_eq_true]
    rfl
  · subst one
    have nonneg : ¬(1 : Int) < 0 := by decide
    have nonzero : ¬(1 : Int) = 0 := by decide
    simp only [if_neg nonneg, if_neg nonzero, Option.getD_some, Option.isSome_some, if_true]
    cases incrInteger by' kv.value 1 <;> rfl

/-- The reply to an increment. -/
def incrementReply : Except Int Int64 × World → Reply × World
  | (.error code, world) => (.error code, world)
  | (.ok new, world) => (.int new.toInt, world)

theorem eval_incrBy (world : World) (key : Bytes) (dir : Int64) {argument : Option Bytes}
    {by' : Int64} (accepted : argument.elim (some 1) int64Argument = some by') :
    (incrBy dir key argument).eval atomically world =
      incrementReply ((incr key (dir * by')).eval atomically world) := by
  simp only [incrBy, accepted, Program.eval_bind]
  rcases (incr key (dir * by')).eval atomically world with ⟨_ | _, _⟩ <;> rfl

/-- The amount that reaches the addition is added exactly. -/
theorem incrementMeets_incr (world : World) (key : Bytes) (by' : Int64) :
    IncrementMeets (storedString · key) (· = encodeMetaKey key) by'.toInt world
      (incrementReply ((incr key by').eval atomically world)) := by
  rw [IncrementMeets, eval_incr]
  cases found : storedString world.db key with
  | error code => rfl
  | ok old =>
      simp only [incrInteger_elim]
      cases old.elim (some 0) textInteger with
      | none => rfl
      | some n =>
          simp only
          split_ifs with fits
          · have written := rewritten_put world key (str (Int64.ofInt (n + by'.toInt)))
              (kvRead (world.db.get (encodeMetaKey key))).2.version
            exact ⟨by rw [incrementReply, Int64.toInt_ofInt_of_le fits.1 fits.2], written⟩
          · rfl

/-- A decrement by the smallest integer finds a number to subtract it from. -/
def DecrementsByMinimum (db : DB) (key : Bytes) (dir by' : Int64) : Prop :=
  dir = -1 ∧ by' = Int64.minValue ∧
    ∃ old, storedString db key = .ok old ∧ (old.elim (some 0) textInteger).isSome

theorem minusOne_mul_minimum : (-1 : Int64) * Int64.minValue = Int64.minValue := by decide

/-- The smallest integer is its own negation, so it is added instead of being subtracted. -/
theorem incrementMeets_minimum (world : World) (key : Bytes) :
    IncrementMeets (storedString · key) (· = encodeMetaKey key) (2 ^ 63) world
        (incrementReply ((incr key Int64.minValue).eval atomically world)) ↔
      ¬∃ old, storedString world.db key = .ok old ∧
        (old.elim (some 0) textInteger).isSome := by
  have met := incrementMeets_incr world key Int64.minValue
  have minimum : Int64.minValue.toInt = -2 ^ 63 := rfl
  rw [IncrementMeets] at met ⊢
  cases found : storedString world.db key with
  | error code =>
      rw [found] at met
      refine iff_of_true met ?_
      rintro ⟨old, other, _⟩
      cases other
  | ok old =>
      rw [found] at met
      simp only at met ⊢
      cases number : old.elim (some 0) textInteger with
      | none =>
          rw [number] at met
          refine iff_of_true met ?_
          rintro ⟨other, same, some⟩
          obtain rfl := Except.ok.inj same
          rw [number] at some
          cases some
      | some n =>
          rw [number, minimum] at met
          refine iff_of_false (fun wrong => ?_) (not_not_intro ⟨old, rfl, by rw [number]; rfl⟩)
          -- one of the two sums fits exactly when the other does not
          have bounds := bounds_of_textInteger number
          simp only at met wrong
          by_cases negative : n < 0
          · rw [if_neg (by omega)] at met
            rw [if_pos (by omega), met] at wrong
            cases wrong.1
          · rw [if_pos (by omega)] at met
            rw [if_neg (by omega)] at wrong
            rw [wrong] at met
            cases met.1

/-- The integer commands on strings are exact unless they negate the smallest integer. -/
theorem incrBy_meets_iff (world : World) (key : Bytes) {dir : Int64} (unit : dir = 1 ∨ dir = -1)
    {argument : Option Bytes} {by' : Int64}
    (accepted : argument.elim (some 1) int64Argument = some by') :
    IncrementMeets (storedString · key) (· = encodeMetaKey key) (dir.toInt * by'.toInt) world
        ((incrBy dir key argument).eval atomically world) ↔
      ¬DecrementsByMinimum world.db key dir by' := by
  rw [eval_incrBy world key dir accepted]
  rcases unit with rfl | rfl
  · have exact : (1 * by' : Int64) = by' := by rw [Int64.one_mul]
    have amount : (1 : Int64).toInt * by'.toInt = by'.toInt := one_mul _
    rw [exact, amount]
    refine iff_of_true (incrementMeets_incr world key by') fun minimum => ?_
    exact absurd minimum.1 (by decide)
  · rcases eq_or_ne by' Int64.minValue with rfl | other
    · have amount : (-1 : Int64).toInt * Int64.minValue.toInt = 2 ^ 63 := rfl
      rw [minusOne_mul_minimum, amount, incrementMeets_minimum]
      refine not_congr ⟨fun found => ⟨rfl, rfl, found⟩, fun minimum => minimum.2.2⟩
    · have lower := by'.le_toInt
      have upper := by'.toInt_lt
      have notMinimum : by'.toInt ≠ -2 ^ 63 := fun same => other (Int64.toInt_inj.mp same)
      have negated : (-1 * by' : Int64).toInt = -by'.toInt := by
        rw [Int64.toInt_mul, show (-1 : Int64).toInt = -1 from rfl, neg_one_mul]
        simp only [Int.bmod_def]
        omega
      have amount : (-1 : Int64).toInt * by'.toInt = (-1 * by' : Int64).toInt := by
        rw [negated]
        exact neg_one_mul _
      rw [amount]
      exact iff_of_true (incrementMeets_incr world key (-1 * by')) fun minimum =>
        other minimum.2.1

/-! ### Hash fields -/

/-- What reading the metadata record of a hash gives. -/
def hashRead : Option Bytes → Int × MetaVal
  | none => (0, { type := DataType.hsize })
  | some metaVal =>
      match MetaVal.decodeMetaVal metaVal with
      | .error code => (code, { type := DataType.hsize })
      | .ok hv =>
          if hv.del = keyDeleteMask then
            (0, { hv with version := nextVersion hv.version, length := 0, del := keyEnabledMask })
          else if hv.type ≠ DataType.hsize then (wrongTypeErr, hv)
          else (1, hv)

/-- The value of a field, or the error that every command on hashes reports for the key. -/
def storedField (db : DB) (name field : Bytes) : Except Int (Option Bytes) :=
  let (ret, hv) := hashRead (db.get (encodeMetaKey name))
  if ret < 0 then .error ret
  else .ok (if ret = 0 then none else db.get (encodeHashKey name field hv.version))

/-- The records an increment of a field writes. -/
def FieldRecord (name field record : Bytes) : Prop :=
  record = encodeMetaKey name ∨ ∃ version, record = encodeHashKey name field version

/-- A new field is added to a hash whose length has reached the largest number there is. -/
def OutgrowsLength (db : DB) (name field : Bytes) : Prop :=
  ∃ hv, hashRead (db.get (encodeMetaKey name)) = (1, hv) ∧ hv.length = 0xFFFFFFFFFFFFFFFF ∧
    db.get (encodeHashKey name field hv.version) = none

theorem hashRead_cases (metaVal : Option Bytes) :
    (hashRead metaVal).1 < 0 ∨
      ((hashRead metaVal).1 = 0 ∧ (hashRead metaVal).2.length = 0) ∨ (hashRead metaVal).1 = 1 := by
  cases metaVal with
  | none => exact Or.inr (Or.inl ⟨rfl, rfl⟩)
  | some metaVal =>
      rw [hashRead]
      cases decoded : MetaVal.decodeMetaVal metaVal with
      | error code =>
          left
          rw [MetaVal.decodeMetaVal] at decoded
          split at decoded
          · obtain rfl := Except.error.inj decoded
            decide
          · split_ifs at decoded
            · obtain rfl := Except.error.inj decoded
              decide
            · split at decoded
              · obtain rfl := Except.error.inj decoded
                decide
              · cases decoded
      | ok hv =>
          simp only
          split_ifs
          · exact Or.inr (Or.inl ⟨rfl, rfl⟩)
          · exact Or.inl (show wrongTypeErr < 0 by decide)
          · exact Or.inr (Or.inr rfl)

theorem hashRead_encode (length : UInt64) (version : UInt16) :
    hashRead (some (encodeMetaValInternal DataType.hsize length version keyEnabledMask)) =
      (1, ⟨DataType.hsize, keyEnabledMask, version, length⟩) := by
  rw [hashRead, decodeMetaVal_encode (Or.inl rfl)]
  simp [enabled_ne_delete]

theorem hashRead_deleted (length : UInt64) (version : UInt16) :
    (hashRead (some (encodeMetaValInternal DataType.hsize length version keyDeleteMask))).1 = 0 := by
  rw [hashRead, decodeMetaVal_deleted]
  simp

theorem encodeHashKey_ne_metaKey (name field other : Bytes) (version : UInt16) :
    encodeHashKey name field version ≠ encodeMetaKey other := by
  intro same
  exact absurd (List.cons.inj same).1 (by decide)

theorem eval_getHashMetaVal_read (world : World) (metaKey : Bytes) :
    (getHashMetaVal metaKey).eval atomically world =
      (hashRead (world.db.get metaKey), world) := by
  have read : (dbGet metaKey).eval atomically world =
      (ReadStatus.ofOption (world.db.get metaKey), world) := rfl
  rw [getHashMetaVal, getMetaVal, Program.eval_bind, read]
  cases world.db.get metaKey with
  | none => rfl
  | some metaVal =>
      simp only [ReadStatus.ofOption, hashRead]
      cases MetaVal.decodeMetaVal metaVal with
      | error code => rfl
      | ok hv =>
          simp only [Program.eval_ite, Program.pure_eq_done, Program.eval_done]
          split_ifs <;> rfl

section Committing

variable (world : World) (name : Bytes) (batch : WriteBatch) (hv : MetaVal)

/-- The length of a hash stays as it is. -/
theorem eval_commitHash_same :
    ∃ ret, 0 ≤ ret ∧ (commitHash name batch (encodeMetaKey name) hv 0).eval atomically world =
      (ret, world.withDB (batch.apply world.db)) := by
  by_cases empty : hv.length = 0
  · refine ⟨0, le_rfl, ?_⟩
    simp [commitHash, commitSize, incrHsize, incrSize, empty, eval_commitBatch]
  · refine ⟨1, by decide, ?_⟩
    simp [commitHash, commitSize, incrHsize, incrSize, empty, eval_commitBatch]

theorem uint64_one : uint64 1 = 1 := rfl

/-- The length of a hash grows by one. -/
theorem eval_commitHash_grow (room : hv.length ≠ 0xFFFFFFFFFFFFFFFF) :
    (commitHash name batch (encodeMetaKey name) hv 1).eval atomically world =
      (1, world.withDB ((batch ++ [BatchOp.put (encodeMetaKey name)
        (encodeMetaValInternal DataType.hsize (hv.length + 1) hv.version keyEnabledMask)]).apply
          world.db)) := by
  by_cases empty : hv.length = 0
  · simp [commitHash, commitSize, incrHsize, incrSize, empty, uint64_one, eval_commitBatch]
  · have positive : ¬hv.length + 1 = 0 := by
      intro wrapped
      apply room
      rw [← UInt64.toNat_inj, UInt64.toNat_add] at wrapped
      rw [← UInt64.toNat_inj]
      have size := hv.length.toNat_lt
      have one : (1 : UInt64).toNat = 1 := rfl
      have zero : (0 : UInt64).toNat = 0 := rfl
      have top : (0xFFFFFFFFFFFFFFFF : UInt64).toNat = 2 ^ 64 - 1 := by decide
      omega
    simp [commitHash, commitSize, incrHsize, incrSize, empty, positive, uint64_one,
      eval_commitBatch]

/-- A hash whose length wraps around to zero is marked deleted. -/
theorem eval_commitHash_wrap (full : hv.length = 0xFFFFFFFFFFFFFFFF) :
    ∃ after, (commitHash name batch (encodeMetaKey name) hv 1).eval atomically world = (0, after) ∧
      after.db.get (encodeMetaKey name) =
        some (encodeMetaValInternal DataType.hsize hv.length hv.version keyDeleteMask) := by
  let marked : WriteBatch := batch ++ [.put (encodeDeleteKey name hv.version) [],
    .put (encodeMetaKey name)
      (encodeMetaValInternal DataType.hsize hv.length hv.version keyDeleteMask)]
  obtain ⟨ret, ops, cancelled, expiry⟩ := eval_cancelExpiration_raw world name marked
  have wrapped : (0xFFFFFFFFFFFFFFFF : UInt64) + 1 = 0 := by decide
  refine ⟨(world.delFastKey name).withDB (WriteBatch.apply (marked ++ ops) world.db), ?_, ?_⟩
  · simp only [marked, full] at cancelled
    simp [commitHash, commitSize, incrHsize, incrSize, full, wrapped, uint64_one, cancelled,
      eval_commitBatch, marked]
  · have content : IsContent (encodeMetaKey name) := Or.inl rfl
    rw [World.db_withDB, WriteBatch.apply_append, WriteBatch.get_apply_of_untouched]
    · rw [WriteBatch.apply_append]
      exact SortedMap.get_put_self _ _ _
    · rintro op mem same
      exact content.not_expiry (same ▸ expiry op mem)

end Committing

/-- What is written once the new number is known. -/
def incrementBatch (name field : Bytes) (version : UInt16) (new : Int64) : WriteBatch :=
  [.put (encodeHashKey name field version) (str new)]

/-- A field is replaced by what is computed from it, and counted when it is new. -/
theorem eval_hincrCommon {ν : Type} (world : World) (name field : Bytes)
    (newVal : Bytes → Int → Except Int ν) (render : ν → Bytes) {ret : Int} {hv : MetaVal}
    (read : hashRead (world.db.get (encodeMetaKey name)) = (ret, hv)) {old : Option Bytes}
    (found : storedField world.db name field = .ok old) :
    (hincrCommon name field newVal render).eval atomically world =
      match newVal (old.getD []) (if old.isSome then 1 else 0) with
      | .error code => (.error code, world)
      | .ok new =>
          let (ret, after) := (commitHash name [.put (encodeHashKey name field hv.version)
            (render new)] (encodeMetaKey name) hv (if old.isSome then 0 else 1)).eval atomically world
          (if ret < 0 then .error ret else .ok new, after) := by
  have cases := hashRead_cases (world.db.get (encodeMetaKey name))
  rw [storedField, read] at found
  rw [read] at cases
  have item : (getHashItemValInternal (encodeHashKey name field hv.version)).eval atomically world =
      (match world.db.get (encodeHashKey name field hv.version) with
        | none => (0, [])
        | some val => (1, val), world) := by
    have stored : (dbGet (encodeHashKey name field hv.version)).eval atomically world =
        (ReadStatus.ofOption (world.db.get (encodeHashKey name field hv.version)), world) := rfl
    rw [getHashItemValInternal, Program.eval_bind, stored]
    cases world.db.get (encodeHashKey name field hv.version) <;> rfl
  have write : ∀ new, (hsetOne [] hv false name field (render new)).eval atomically world =
      ((1, [.put (encodeHashKey name field hv.version) (render new)]), world) := fun _ => rfl
  have nonneg : ¬(1 : Int) < 0 := by decide
  simp only [hincrCommon, eval_recordKeyLock, Program.eval_bind, eval_getHashMetaVal_read, read]
  rcases cases with negative | ⟨zero, _⟩ | one
  · simp only [if_pos negative] at found
    cases found
  · -- the hash is absent, so its items are not looked at
    subst zero
    simp only [lt_irrefl, if_false, if_true, Except.ok.injEq] at found
    subst found
    simp only [lt_irrefl, if_false, Program.pure_eq_done, Option.getD_none, Option.isSome_none,
      Bool.false_eq_true, Program.done_bind]
    cases newVal [] 0 with
    | error code => rfl
    | ok new =>
        simp only [write, Program.eval_bind, if_neg nonneg, zero_ne_one, if_false,
          Program.eval_ite, Program.eval_done]
        split_ifs <;> rfl
  · subst one
    simp only [if_neg nonneg, one_ne_zero, if_false, Except.ok.injEq] at found
    subst found
    have positive : (1 : Int) > 0 := by decide
    simp only [if_neg nonneg, if_pos positive, Program.eval_bind, item]
    cases world.db.get (encodeHashKey name field hv.version) with
    | none =>
        simp only [lt_irrefl, if_false, Option.getD_none, Option.isSome_none, Bool.false_eq_true]
        cases newVal [] 0 with
        | error code => rfl
        | ok new =>
            simp only [write, Program.eval_bind, if_neg nonneg, zero_ne_one, if_false,
              Program.eval_ite, Program.eval_done, Program.pure_eq_done]
            split_ifs <;> rfl
    | some text =>
        simp only [if_neg nonneg, Option.getD_some, Option.isSome_some, if_true]
        cases newVal text 1 with
        | error code => rfl
        | ok new =>
            simp only [write, Program.eval_bind, if_neg nonneg, Program.pure_eq_done,
              Program.eval_ite, Program.eval_done]
            split_ifs <;> rfl

theorem eval_hincr (world : World) (name field : Bytes) (by' : Int64) {ret : Int} {hv : MetaVal}
    (read : hashRead (world.db.get (encodeMetaKey name)) = (ret, hv)) {old : Option Bytes}
    (found : storedField world.db name field = .ok old) :
    (hincr name field by').eval atomically world =
      match incrInteger by' (old.getD []) (if old.isSome then 1 else 0) with
      | .error code => (.error code, world)
      | .ok new =>
          let (ret, after) := (commitHash name (incrementBatch name field hv.version new)
            (encodeMetaKey name) hv (if old.isSome then 0 else 1)).eval atomically world
          (if ret < 0 then .error ret else .ok new, after) := by
  rw [hincr, eval_hincrCommon world name field (incrInteger by') str read found]
  cases incrInteger by' (old.getD []) (if old.isSome then 1 else 0) <;> rfl

theorem eval_hincr_error (world : World) (name field : Bytes) (by' : Int64) {code : Int}
    (found : storedField world.db name field = .error code) :
    (hincr name field by').eval atomically world = (.error code, world) := by
  obtain ⟨ret, hv, read⟩ : ∃ ret hv, hashRead (world.db.get (encodeMetaKey name)) = (ret, hv) :=
    ⟨_, _, rfl⟩
  rw [storedField, read] at found
  simp only at found
  split_ifs at found with negative
  · obtain rfl := Except.error.inj found
    simp only [hincr, hincrCommon, eval_recordKeyLock, Program.eval_bind, eval_getHashMetaVal_read,
      read, if_pos negative]
    rfl

theorem eval_procHincrby (world : World) (name field : Bytes) (by' : Int64) :
    (procHincrby name field by').eval atomically world =
      incrementReply ((hincr name field by').eval atomically world) := by
  simp only [procHincrby, Program.eval_bind]
  rcases (hincr name field by').eval atomically world with ⟨_ | _, _⟩ <;> rfl

section Field

variable {world : World} {name field : Bytes} {ret : Int} {hv : MetaVal}

/-- A new text stands in its field, under the metadata that was there. -/
theorem fieldStored_put (read : hashRead (world.db.get (encodeMetaKey name)) = (1, hv))
    (val : Bytes) :
    storedField (world.db.put (encodeHashKey name field hv.version) val) name field =
        .ok (some val) ∧
      OnlyChanges (FieldRecord name field) world.db
        (world.db.put (encodeHashKey name field hv.version) val) := by
  constructor
  · have metadata : (world.db.put (encodeHashKey name field hv.version) val).get
        (encodeMetaKey name) = world.db.get (encodeMetaKey name) :=
      (SortedMap.get_put _ _ _ _).trans (if_neg (encodeHashKey_ne_metaKey _ _ _ _).symm)
    rw [storedField, metadata, read]
    exact congrArg Except.ok (SortedMap.get_put_self _ _ _)
  · intro record other
    refine (SortedMap.get_put _ _ _ _).trans (if_neg fun same => ?_)
    exact other (Or.inr ⟨hv.version, same⟩)

theorem fieldStored_same (read : hashRead (world.db.get (encodeMetaKey name)) = (1, hv))
    (new : Int64) :
    storedField ((incrementBatch name field hv.version new).apply world.db) name field =
        .ok (some (str new)) ∧
      OnlyChanges (FieldRecord name field) world.db
        ((incrementBatch name field hv.version new).apply world.db) :=
  fieldStored_put read (str new)

/-- The new number stands in its field, under metadata that counts one field more. -/
theorem fieldStored_grown (new : Int64) (length : UInt64) (version : UInt16) :
    let after := WriteBatch.apply (incrementBatch name field version new ++
      [BatchOp.put (encodeMetaKey name)
        (encodeMetaValInternal DataType.hsize length version keyEnabledMask)]) world.db
    storedField after name field = .ok (some (str new)) ∧
      OnlyChanges (FieldRecord name field) world.db after := by
  intro after
  have metadata : after.get (encodeMetaKey name) =
      some (encodeMetaValInternal DataType.hsize length version keyEnabledMask) :=
    SortedMap.get_put_self _ _ _
  have item : after.get (encodeHashKey name field version) = some (str new) :=
    ((SortedMap.get_put _ _ _ _).trans (if_neg (encodeHashKey_ne_metaKey _ _ _ _))).trans
      (SortedMap.get_put_self _ _ _)
  constructor
  · rw [storedField, metadata, hashRead_encode]
    exact congrArg Except.ok item
  · intro record other
    have notMetadata : record ≠ encodeMetaKey name := fun same => other (Or.inl same)
    have notItem : record ≠ encodeHashKey name field version :=
      fun same => other (Or.inr ⟨version, same⟩)
    exact ((SortedMap.get_put _ _ _ _).trans (if_neg notMetadata)).trans
      ((SortedMap.get_put _ _ _ _).trans (if_neg notItem))

/-- HINCRBY is exact unless the length of the hash wraps around. -/
theorem hincrby_meets_iff (world : World) (name field : Bytes) (by' : Int64) :
    IncrementMeets (storedField · name field) (FieldRecord name field) by'.toInt world
        ((procHincrby name field by').eval atomically world) ↔
      ¬OutgrowsLength world.db name field := by
  obtain ⟨ret, hv, read⟩ : ∃ ret hv, hashRead (world.db.get (encodeMetaKey name)) = (ret, hv) :=
    ⟨_, _, rfl⟩
  have cases := hashRead_cases (world.db.get (encodeMetaKey name))
  rw [read] at cases
  have outgrows : OutgrowsLength world.db name field ↔ ret = 1 ∧ hv.length = 0xFFFFFFFFFFFFFFFF ∧
      world.db.get (encodeHashKey name field hv.version) = none := by
    rw [OutgrowsLength, read]
    constructor
    · rintro ⟨hv, same, full, absent⟩
      obtain ⟨rfl, rfl⟩ := Prod.mk.inj same
      exact ⟨rfl, full, absent⟩
    · rintro ⟨rfl, full, absent⟩
      exact ⟨hv, rfl, full, absent⟩
  rw [eval_procHincrby, IncrementMeets, outgrows]
  cases found : storedField world.db name field with
  | error code =>
      rw [eval_hincr_error world name field by' found]
      refine iff_of_true rfl fun full => ?_
      rw [storedField, read, full.1] at found
      cases found
  | ok old =>
      -- a field that is missing counts as zero, so only a field that exists can be refused
      have present : ∀ text, old = some text →
          ¬(ret = 1 ∧ hv.length = 0xFFFFFFFFFFFFFFFF ∧
            world.db.get (encodeHashKey name field hv.version) = none) := by
        rintro text rfl ⟨rfl, _, absent⟩
        rw [storedField, read] at found
        have same : world.db.get (encodeHashKey name field hv.version) = some text :=
          Except.ok.inj found
        rw [absent] at same
        cases same
      rw [eval_hincr world name field by' read found]
      simp only [incrInteger_elim]
      cases old with
      | some text =>
          refine iff_of_true ?_ (present text rfl)
          obtain rfl : ret = 1 := by
            rw [storedField, read] at found
            rcases cases with negative | ⟨rfl, _⟩ | one
            · simp only [if_pos negative] at found
              cases found
            · cases found
            · exact one
          simp only [Option.elim_some, Option.isSome_some, if_true]
          cases textInteger text with
          | none => rfl
          | some n =>
              simp only
              split_ifs with fits
              · obtain ⟨ret, nonneg, commit⟩ := eval_commitHash_same world name
                  (incrementBatch name field hv.version (Int64.ofInt (n + by'.toInt))) hv
                simp only [commit, if_neg (not_lt.mpr nonneg), incrementReply]
                refine ⟨?_, fieldStored_same read _⟩
                rw [Int64.toInt_ofInt_of_le fits.1 fits.2]
              · rfl
      | none =>
          simp only [Option.elim_none, Option.isSome_none, Bool.false_eq_true, if_false, zero_add,
            if_pos (And.intro by'.le_toInt by'.toInt_lt), Int64.ofInt_toInt]
          by_cases full : hv.length = 0xFFFFFFFFFFFFFFFF
          · obtain ⟨after, commit, deleted⟩ := eval_commitHash_wrap world name
              (incrementBatch name field hv.version by') hv full
            obtain rfl : ret = 1 := by
              rcases cases with negative | ⟨_, empty⟩ | one
              · rw [storedField, read] at found
                simp only [if_pos negative] at found
                cases found
              · rw [empty] at full
                cases full
              · exact one
            have absent : world.db.get (encodeHashKey name field hv.version) = none := by
              rw [storedField, read] at found
              exact Except.ok.inj found
            refine iff_of_false (fun met => ?_) (not_not_intro ⟨rfl, full, absent⟩)
            have stored := met.2.1
            simp only [commit, lt_irrefl, if_false, incrementReply] at stored
            rw [storedField, deleted] at stored
            have zero := hashRead_deleted hv.length hv.version
            simp only [zero, lt_irrefl, if_false, if_true] at stored
            cases stored
          · have commit := eval_commitHash_grow world name
              (incrementBatch name field hv.version by') hv full
            have nonneg : ¬(1 : Int) < 0 := by decide
            simp only [commit, if_neg nonneg, incrementReply]
            exact iff_of_true ⟨trivial, fieldStored_grown by' _ _⟩ fun wrap => full wrap.2.1

end Field

/-- Where the increments of strings and of hash fields are exact. -/
theorem increments_meet_iff (world : World) (key : Bytes) {dir : Int64}
    (unit : dir = 1 ∨ dir = -1) {argument : Option Bytes} {by' : Int64}
    (accepted : argument.elim (some 1) int64Argument = some by') (name field : Bytes)
    (amount : Int64) :
    (IncrementMeets (storedString · key) (· = encodeMetaKey key) (dir.toInt * by'.toInt) world
        ((incrBy dir key argument).eval atomically world) ↔
      ¬DecrementsByMinimum world.db key dir by') ∧
    (IncrementMeets (storedField · name field) (FieldRecord name field) amount.toInt world
        ((procHincrby name field amount).eval atomically world) ↔
      ¬OutgrowsLength world.db name field) :=
  ⟨incrBy_meets_iff world key unit accepted, hincrby_meets_iff world name field amount⟩

theorem increments_meet_five :
    (IncrementMeets (storedString · [107]) (· = encodeMetaKey [107])
        ((1 : Int64).toInt * (1 : Int64).toInt) (stringWorld [107] [53])
        ((incrBy 1 [107] none).eval atomically (stringWorld [107] [53])) ↔
      ¬DecrementsByMinimum (stringWorld [107] [53]).db [107] 1 1) ∧
    (IncrementMeets (storedField · [104] [102]) (FieldRecord [104] [102]) (3 : Int64).toInt
        (stringWorld [107] [53])
        ((procHincrby [104] [102] 3).eval atomically (stringWorld [107] [53])) ↔
      ¬OutgrowsLength (stringWorld [107] [53]).db [104] [102]) :=
  increments_meet_iff (stringWorld [107] [53]) [107] (Or.inl rfl) rfl [104] [102] 3

/-- `DECRBY k -9223372036854775808` makes the string `5` smaller. -/
theorem decrement_by_minimum_wraps :
    int64Argument [45, 57, 50, 50, 51, 51, 55, 50, 48, 51, 54, 56, 53, 52, 55, 55, 53, 56, 48, 56] =
        some Int64.minValue ∧
      ¬IncrementMeets (storedString · [107]) (· = encodeMetaKey [107])
        ((-1 : Int64).toInt * Int64.minValue.toInt) (stringWorld [107] [53])
        ((procDecr [107] (some
          [45, 57, 50, 50, 51, 51, 55, 50, 48, 51, 54, 56, 53, 52, 55, 55, 53, 56, 48, 56])).eval
          atomically (stringWorld [107] [53])) := by
  have accepted : int64Argument
      [45, 57, 50, 50, 51, 51, 55, 50, 48, 51, 54, 56, 53, 52, 55, 55, 53, 56, 48, 56] =
        some Int64.minValue := by decide +kernel
  refine ⟨accepted, ?_⟩
  rw [procDecr, incrBy_meets_iff _ _ (Or.inr rfl) (by rw [Option.elim_some, accepted]), not_not]
  refine ⟨by decide +kernel, rfl, some [53], storedString_stringWorld _ _, ?_⟩
  rw [Option.elim_some, textInteger_eq]
  decide +kernel

end Vcdb
