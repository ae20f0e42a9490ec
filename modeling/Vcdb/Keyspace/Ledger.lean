import Vcdb.Keyspace.ExpireTime

/-!
# The ledger of keys

Beside its elements a key has metadata, an expiry, and entries in the index of expiries.  These are
filed under the name of the key as a whole, whatever its length, so that updates of one key cannot
reach those of another.
-/

namespace Vcdb

/-- The metadata and the expiry of a key, and what the index of expiries has under its name. -/
@[ext]
structure KeyRecords where
  metaVal : Option Bytes
  expiry : Option Bytes
  index : UInt64 → Option Bytes

abbrev Ledger := Bytes → KeyRecords

def DB.ledger (db : DB) : Ledger := fun key =>
  ⟨db.get (encodeMetaKey key), db.get (encodeEsetKey key),
    fun score => db.get (encodeEscoreKey key score)⟩

/-- Items, score entries and delete keys are in no ledger. -/
def Unledgered (raw : Bytes) : Prop :=
  raw.head? ≠ some DataType.metadata ∧ raw.head? ≠ some DataType.ekey ∧
    raw.head? ≠ some DataType.escore

section Updates

variable {db : DB} {key : Bytes}

theorem encodeEscoreKey_inj {key other : Bytes} {score score' : UInt64} :
    encodeEscoreKey key score = encodeEscoreKey other score' ↔ key = other ∧ score = score' := by
  constructor
  · intro same
    obtain ⟨scores, keys⟩ := List.append_inj (List.cons.inj same).2 (by simp [be64])
    exact ⟨keys, be64_injective scores⟩
  · rintro ⟨rfl, rfl⟩
    rfl

theorem encodeEsetKey_inj {key other : Bytes} :
    encodeEsetKey key = encodeEsetKey other ↔ key = other := by
  simp [encodeEsetKey]

theorem encodeMetaKey_inj {key other : Bytes} :
    encodeMetaKey key = encodeMetaKey other ↔ key = other := by
  simp [encodeMetaKey]

theorem ledger_put_metaKey (db : DB) (key val : Bytes) :
    DB.ledger (db.put (encodeMetaKey key) val) =
      Function.update db.ledger key { db.ledger key with metaVal := some val } := by
  funext other
  rw [Function.update_apply]
  have expiry := (encodeEsetKey_ne_metaKey other key)
  have index := fun score => encodeEscoreKey_ne_metaKey other key score
  by_cases same : other = key
  · subst same
    simp [DB.ledger, SortedMap.get_put, expiry, index]
  · simp [DB.ledger, SortedMap.get_put, expiry, index, encodeMetaKey_inj, same]

theorem ledger_put_esetKey (db : DB) (key val : Bytes) :
    DB.ledger (db.put (encodeEsetKey key) val) =
      Function.update db.ledger key { db.ledger key with expiry := some val } := by
  funext other
  rw [Function.update_apply]
  have metadata := (encodeEsetKey_ne_metaKey key other).symm
  have index := fun score => encodeEscoreKey_ne_esetKey other key score
  by_cases same : other = key
  · subst same
    simp [DB.ledger, SortedMap.get_put, metadata, index]
  · simp [DB.ledger, SortedMap.get_put, metadata, index, encodeEsetKey_inj, same]

theorem ledger_erase_esetKey (db : DB) (key : Bytes) :
    DB.ledger (db.erase (encodeEsetKey key)) =
      Function.update db.ledger key { db.ledger key with expiry := none } := by
  funext other
  rw [Function.update_apply]
  have metadata := (encodeEsetKey_ne_metaKey key other).symm
  have index := fun score => encodeEscoreKey_ne_esetKey other key score
  by_cases same : other = key
  · subst same
    simp [DB.ledger, SortedMap.get_erase, metadata, index]
  · simp [DB.ledger, SortedMap.get_erase, metadata, index, encodeEsetKey_inj, same]

theorem ledger_put_escoreKey (db : DB) (key val : Bytes) (score : UInt64) :
    DB.ledger (db.put (encodeEscoreKey key score) val) = Function.update db.ledger key
      { db.ledger key with index := Function.update (db.ledger key).index score (some val) } := by
  funext other
  rw [Function.update_apply]
  have metadata := (encodeEscoreKey_ne_metaKey key other score).symm
  have expiry := (encodeEscoreKey_ne_esetKey key other score).symm
  by_cases same : other = key
  · subst same
    simp only [DB.ledger, SortedMap.get_put, metadata, expiry, if_false, encodeEscoreKey_inj,
      true_and, if_true]
    congr 1
    funext score'
    rw [Function.update_apply]
  · simp [DB.ledger, SortedMap.get_put, metadata, expiry, encodeEscoreKey_inj, same]

theorem ledger_erase_escoreKey (db : DB) (key : Bytes) (score : UInt64) :
    DB.ledger (db.erase (encodeEscoreKey key score)) = Function.update db.ledger key
      { db.ledger key with index := Function.update (db.ledger key).index score none } := by
  funext other
  rw [Function.update_apply]
  have metadata := (encodeEscoreKey_ne_metaKey key other score).symm
  have expiry := (encodeEscoreKey_ne_esetKey key other score).symm
  by_cases same : other = key
  · subst same
    simp only [DB.ledger, SortedMap.get_erase, metadata, expiry, if_false, encodeEscoreKey_inj,
      true_and, if_true]
    congr 1
    funext score'
    rw [Function.update_apply]
  · simp [DB.ledger, SortedMap.get_erase, metadata, expiry, encodeEscoreKey_inj, same]

theorem ledger_of_unledgered {batch : WriteBatch} (unledgered : ∀ op ∈ batch, Unledgered op.key) :
    (batch.apply db).ledger = db.ledger := by
  funext key
  have same : ∀ raw : Bytes, ¬Unledgered raw → (batch.apply db).get raw = db.get raw :=
    fun raw listed => WriteBatch.get_apply_of_untouched fun op mem eq =>
      listed (eq ▸ unledgered op mem)
  ext1
  · exact same _ fun listed => listed.1 rfl
  · exact same _ fun listed => listed.2.1 rfl
  · funext score
    exact same _ fun listed => listed.2.2 rfl

end Updates

section Expiries

namespace KeyRecords

/-- Without the expiry that was stored. -/
def forget (stored : Option Bytes) (records : KeyRecords) : KeyRecords :=
  match stored with
  | none => records
  | some strScore => { records with
      expiry := none, index := Function.update records.index (readHostOrder64 strScore) none }

/-- With an expiry in the place of the one that was stored. -/
def expire (stored : Option Int64) (ts : Int64) (records : KeyRecords) : KeyRecords where
  metaVal := records.metaVal
  expiry := some (hostOrder64 ts.toUInt64)
  index := Function.update
    (match stored with
      | none => records.index
      | some old =>
          if old ≠ ts then Function.update records.index old.toUInt64 none else records.index)
    ts.toUInt64 (some [])

/-- The index lists the key under its expiry, and under nothing else. -/
def Tidy (records : KeyRecords) : Prop :=
  (records.expiry = none ∧ ∀ score, records.index score = none) ∨
    ∃ ts : UInt64, records.expiry = some (hostOrder64 ts) ∧
      ∀ score, records.index score = if score = ts then some [] else none

variable {records : KeyRecords}

@[simp]
theorem metaVal_forget (stored : Option Bytes) :
    (records.forget stored).metaVal = records.metaVal := by
  cases stored <;> rfl

@[simp]
theorem metaVal_expire (stored : Option Int64) (ts : Int64) :
    (records.expire stored ts).metaVal = records.metaVal := rfl

theorem Tidy.setMeta (tidy : records.Tidy) (metaVal : Option Bytes) :
    ({ records with metaVal } : KeyRecords).Tidy := tidy

theorem Tidy.forget (tidy : records.Tidy) :
    (records.forget records.expiry).Tidy ∧ (records.forget records.expiry).expiry = none := by
  rcases tidy with ⟨none, empty⟩ | ⟨ts, some, single⟩
  · rw [none]
    exact ⟨Or.inl ⟨none, empty⟩, none⟩
  · rw [some]
    refine ⟨Or.inl ⟨rfl, fun score => ?_⟩, rfl⟩
    simp only [KeyRecords.forget, readHostOrder64_hostOrder64, Function.update_apply, single]
    split_ifs
    · rfl
    · rfl

theorem Tidy.expire (tidy : records.Tidy) {stored : Option Int64}
    (current : stored = records.expiry.map fun strScore => (readHostOrder64 strScore).toInt64)
    (ts : Int64) : (records.expire stored ts).Tidy := by
  refine Or.inr ⟨ts.toUInt64, rfl, fun score => ?_⟩
  subst current
  rcases tidy with ⟨none, empty⟩ | ⟨old, some, single⟩
  · simp [KeyRecords.expire, none, Function.update_apply, empty]
  · simp only [KeyRecords.expire, some, Option.map_some, readHostOrder64_hostOrder64,
      Function.update_apply]
    by_cases same : score = ts.toUInt64
    · simp [same]
    · simp only [same, if_false]
      split_ifs with differs
      · simp only [Function.update_apply, single]
        by_cases listed : score = old
        · simp [listed]
        · simp [listed]
      · rw [single, if_neg]
        rintro rfl
        exact differs fun eq => same (by rw [← eq]; rfl)

end KeyRecords

/-- The updates that forget the expiry of a key. -/
def forgetBatch (db : DB) (key : Bytes) : WriteBatch :=
  match db.get (encodeEsetKey key) with
  | none => []
  | some strScore =>
      [.delete (encodeEscoreKey key (readHostOrder64 strScore)), .delete (encodeEsetKey key)]

theorem ledger_forgetBatch (db before : DB) (key : Bytes) :
    ((forgetBatch db key).apply before).ledger = Function.update before.ledger key
      ((before.ledger key).forget (db.get (encodeEsetKey key))) := by
  rw [forgetBatch]
  cases db.get (encodeEsetKey key) with
  | none => exact (Function.update_eq_self key before.ledger).symm
  | some strScore =>
      simp only [WriteBatch.apply, List.foldl_cons, List.foldl_nil, BatchOp.apply,
        ledger_erase_esetKey, ledger_erase_escoreKey, Function.update_self, Function.update_idem]
      rfl

theorem ledger_expiryBatch (db before : DB) (key : Bytes) (ts : Int64) :
    ((expiryBatch db key ts).apply before).ledger = Function.update before.ledger key
      ((before.ledger key).expire (storedExpiry db key) ts) := by
  rw [expiryBatch, WriteBatch.apply_append]
  cases storedExpiry db key with
  | none =>
      simp only [WriteBatch.apply, List.foldl_cons, List.foldl_nil, BatchOp.apply,
        ledger_put_esetKey, ledger_put_escoreKey, Function.update_self, Function.update_idem]
      rfl
  | some old =>
      simp only [KeyRecords.expire]
      split_ifs with differs
      · simp only [WriteBatch.apply, List.foldl_cons, List.foldl_nil, BatchOp.apply,
          ledger_put_esetKey, ledger_put_escoreKey, ledger_erase_escoreKey, Function.update_self,
          Function.update_idem]
      · simp only [WriteBatch.apply, List.foldl_cons, List.foldl_nil, BatchOp.apply,
          ledger_put_esetKey, ledger_put_escoreKey, Function.update_self, Function.update_idem]

theorem eval_cancelExpiration_batch (world : World) (key : Bytes) (batch : WriteBatch) :
    ∃ ret, 0 ≤ ret ∧ (cancelExpiration key batch).eval atomically world =
      ((ret, batch ++ forgetBatch world.db key), world.delFastKey key) := by
  have read : (dbGet (encodeEsetKey key)).eval atomically (world.delFastKey key) =
      (ReadStatus.ofOption (world.db.get (encodeEsetKey key)), world.delFastKey key) := rfl
  rw [cancelExpiration, Program.eval_bind, eval_delFastKey, edelOne, Program.eval_bind, eget,
    Program.eval_bind, read, forgetBatch]
  cases world.db.get (encodeEsetKey key) with
  | none => exact ⟨0, le_refl 0, by rw [List.append_nil]; rfl⟩
  | some strScore => exact ⟨1, zero_le_one, rfl⟩

end Expiries

section Lives

/-- What the metadata of a key says about it. -/
inductive Life
  | absent
  | live (type : UInt8) (version : UInt16)
  | deleted (version : UInt16)
  | unreadable
deriving DecidableEq

namespace Life

def ofMeta : Option Bytes → Life
  | none => absent
  | some metaVal =>
      match decodeMetaHeader metaVal with
      | none => unreadable
      | some (header, _) =>
          if header.del = keyDeleteMask then deleted header.version
          else live header.type header.version

/-- The version at which a key is written: that of the live value, if it is of the type, or the
next one of a key that is to be created. -/
def Opens (type : UInt8) (version : UInt16) : Life → Prop
  | absent => version = 0
  | live type' version' => type = type' ∧ version = version'
  | deleted version' => version = nextVersion version'
  | unreadable => False

end Life

def DB.life (db : DB) (key : Bytes) : Life := Life.ofMeta (db.get (encodeMetaKey key))

theorem life_of_header {metaVal rest : Bytes} {header : MetaHeader}
    (decoded : decodeMetaHeader metaVal = some (header, rest)) :
    Life.ofMeta (some metaVal) =
      if header.del = keyDeleteMask then .deleted header.version
      else .live header.type header.version := by
  rw [Life.ofMeta, decoded]

theorem metaLive_iff_life {db : DB} {key : Bytes} :
    MetaLive db key ↔ ∃ type version, db.life key = .live type version := by
  rw [MetaLive, DB.life]
  cases db.get (encodeMetaKey key) with
  | none => simp [Life.ofMeta]
  | some metaVal =>
      simp only [Option.some.injEq, exists_eq_left', Life.ofMeta]
      cases decoded : decodeMetaHeader metaVal with
      | none =>
          refine iff_of_false (fun enabled => ?_) (by simp)
          rcases metaVal with _ | ⟨type, _ | ⟨high, _ | ⟨low, _ | ⟨del, tail⟩⟩⟩⟩
          · cases enabled
          · cases enabled
          · cases enabled
          · cases enabled
          · cases enabled
            simp [decodeMetaHeader] at decoded
      | some found =>
          obtain ⟨header, rest⟩ := found
          rw [(decodeMetaHeader_eq_some decoded).2, Option.some_inj]
          rcases decodeMetaHeader_flag decoded with deleted | enabled
          · simp [deleted, enabled_ne_delete.symm]
          · simp [enabled, enabled_ne_delete]

end Lives

end Vcdb
