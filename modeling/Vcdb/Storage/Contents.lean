import Vcdb.Storage.Expiration

/-!
# The store as a table of records

What a store holds under the record keys, how a batch of record updates changes it, and what the
storage operations do when commands run one at a time.
-/

namespace Vcdb

/-- Values by record key. -/
abbrev Contents := RecordKey → Option Bytes

def DB.contents (db : DB) : Contents := fun record => db.get record.encode

/-- Store a value under a record, or remove the record. -/
structure Update where
  record : RecordKey
  val : Option Bytes
deriving DecidableEq

namespace Update

def encode (update : Update) : BatchOp :=
  match update.val with
  | some val => .put update.record.encode val
  | none => .delete update.record.encode

/-- The user key an update concerns. -/
def owner (update : Update) : UserKey := update.record.owner

def apply (contents : Contents) (update : Update) : Contents :=
  Function.update contents update.record update.val

end Update

namespace Contents

def applyAll (contents : Contents) (updates : List Update) : Contents :=
  updates.foldl Update.apply contents

@[simp]
theorem applyAll_nil (contents : Contents) : contents.applyAll [] = contents := rfl

@[simp]
theorem applyAll_append (contents : Contents) (first second : List Update) :
    contents.applyAll (first ++ second) = (contents.applyAll first).applyAll second :=
  List.foldl_append

@[simp]
theorem applyAll_cons (contents : Contents) (update : Update) (updates : List Update) :
    contents.applyAll (update :: updates) =
      applyAll (Function.update contents update.record update.val) updates := rfl

/-- A record no update names keeps its value. -/
theorem applyAll_of_notMem {contents : Contents} {updates : List Update} {record : RecordKey}
    (untouched : ∀ update ∈ updates, update.record ≠ record) :
    contents.applyAll updates record = contents record := by
  induction updates generalizing contents with
  | nil => rfl
  | cons update updates ih =>
      rw [applyAll_cons, ih fun u mem => untouched u (List.mem_cons_of_mem _ mem)]
      exact Function.update_of_ne (untouched _ List.mem_cons_self).symm _ _

theorem applyAll_deletes (contents : Contents) (removed : List RecordKey) (record : RecordKey) :
    contents.applyAll (removed.map fun r => ⟨r, none⟩) record =
      if record ∈ removed then none else contents record := by
  induction removed generalizing contents with
  | nil => simp
  | cons first removed ih =>
      rw [List.map_cons, applyAll_cons, ih, Function.update_apply]
      by_cases inTail : record ∈ removed <;> by_cases isFirst : record = first <;>
        simp [inTail, isFirst]

/-- Updates of one user key leave the records of the others alone. -/
theorem applyAll_of_owner {contents : Contents} {updates : List Update} {key : UserKey}
    (owned : ∀ update ∈ updates, update.owner = key) {record : RecordKey}
    (other : record.owner ≠ key) : contents.applyAll updates record = contents record :=
  applyAll_of_notMem fun _ mem same => other (same ▸ owned _ mem)

end Contents

theorem DB.contents_apply_encode (db : DB) (update : Update) :
    DB.contents (update.encode.apply db) = update.apply db.contents := by
  obtain ⟨record, val⟩ := update
  funext other
  rw [Update.apply, Function.update_apply]
  cases val with
  | none => simp [Update.encode, BatchOp.apply, contents, SortedMap.get_erase]
  | some val => simp [Update.encode, BatchOp.apply, contents, SortedMap.get_put]

/-- A batch of encoded updates changes the contents as the updates do. -/
theorem DB.contents_apply (db : DB) (updates : List Update) :
    DB.contents (WriteBatch.apply (updates.map Update.encode) db) =
      db.contents.applyAll updates := by
  induction updates generalizing db with
  | nil => rfl
  | cons update updates ih =>
      simp only [WriteBatch.apply, List.map_cons, List.foldl_cons] at ih ⊢
      rw [ih, contents_apply_encode]
      rfl

/-- Every key of the store is the encoding of a record. -/
def DB.WellKeyed (db : DB) : Prop :=
  ∀ raw, (db.get raw).isSome → ∃ record : RecordKey, raw = record.encode

/-- A store reached by record updates. -/
def DB.Updated (db after : DB) : Prop :=
  ∃ updates : List Update, after = WriteBatch.apply (updates.map Update.encode) db

theorem DB.Updated.refl (db : DB) : db.Updated db := ⟨[], rfl⟩

theorem DB.WellKeyed.updated {db after : DB} (keyed : db.WellKeyed) (updated : db.Updated after) :
    after.WellKeyed := by
  obtain ⟨updates, rfl⟩ := updated
  induction updates generalizing db with
  | nil => exact keyed
  | cons update updates ih =>
      refine ih (show DB.WellKeyed (update.encode.apply db) from fun raw found => ?_)
      obtain ⟨record, val⟩ := update
      by_cases same : raw = record.encode
      · exact ⟨record, same⟩
      · apply keyed
        cases val with
        | none => simpa [Update.encode, BatchOp.apply, SortedMap.get_erase, same] using found
        | some val => simpa [Update.encode, BatchOp.apply, SortedMap.get_put, same] using found

section Records

variable (key : UserKey) (version : UInt16) (field : Bytes)

theorem encodeMetaKey_eq : encodeMetaKey key.1 = (RecordKey.metadata key).encode := rfl

theorem encodeHashKey_eq :
    encodeHashKey key.1 field version = (RecordKey.item key version field).encode := rfl

theorem encodeSetKey_eq :
    encodeSetKey key.1 field version = (RecordKey.item key version field).encode := rfl

theorem encodeZsetKey_eq :
    encodeZsetKey key.1 field version = (RecordKey.item key version field).encode := rfl

theorem encodeListKey_eq_encode (seq : UInt64) :
    encodeListKey key.1 seq version = (RecordKey.item key version (be64 seq)).encode := rfl

theorem encodeZscoreKey_eq_encode (score : Double) :
    encodeZscoreKey key.1 field score version =
      (RecordKey.zscore key version score field).encode := rfl

theorem encodeEsetKey_eq : encodeEsetKey key.1 = (RecordKey.ekey key).encode := rfl

theorem encodeEscoreKey_eq (score : UInt64) :
    encodeEscoreKey key.1 score = (RecordKey.escore score key).encode := rfl

theorem encodeDeleteKey_eq :
    encodeDeleteKey key.1 version = (RecordKey.delete key version).encode := rfl

theorem put_eq (record : RecordKey) (val : Bytes) :
    BatchOp.put record.encode val = Update.encode ⟨record, some val⟩ := rfl

theorem delete_eq (record : RecordKey) :
    BatchOp.delete record.encode = Update.encode ⟨record, none⟩ := rfl

end Records

section Evaluation

variable {α : Type} (world : World)

/-- Replace the store. -/
def World.withDB (world : World) (db : DB) : World := { world with db }

@[simp]
theorem World.db_withDB (db : DB) : (world.withDB db).db = db := rfl

@[simp]
theorem eval_lockKey (key : Bytes) : (lockKey key).eval atomically world = ((), world) := rfl

@[simp]
theorem eval_unlockKey (key : Bytes) : (unlockKey key).eval atomically world = ((), world) := rfl

@[simp]
theorem eval_recordKeyLock (key : Bytes) (body : Command α) :
    (recordKeyLock key body).eval atomically world = body.eval atomically world := by
  simp only [recordKeyLock, Program.eval_bind, eval_lockKey, eval_unlockKey, Program.pure_eq_done,
    Program.eval_done]

theorem eval_dbGet (record : RecordKey) :
    (dbGet record.encode).eval atomically world =
      (ReadStatus.ofOption (world.db.contents record), world) := rfl

@[simp]
theorem eval_getSnapshot : getSnapshot.eval atomically world = (world.db, world) := rfl

@[simp]
theorem eval_commitBatch (batch : WriteBatch) :
    (commitBatch batch).eval atomically world = (true, world.withDB (batch.apply world.db)) := rfl

/-- The updates that forget the expiry of a key. -/
def cancelUpdates (contents : Contents) (key : UserKey) : List Update :=
  match contents (.ekey key) with
  | none => []
  | some strScore =>
      [⟨.escore (readHostOrder64 strScore) key, none⟩, ⟨.ekey key, none⟩]

/-- Forget a key in the expiration handler's memory. -/
def World.delFastKey (world : World) (key : Bytes) : World :=
  { world with expiration := world.expiration.delFastKey key }

@[simp]
theorem World.db_delFastKey (key : Bytes) : (world.delFastKey key).db = world.db := rfl

@[simp]
theorem eval_delFastKey (key : Bytes) :
    (delFastKey key).eval atomically world = ((), world.delFastKey key) := rfl

theorem eval_eget (key : UserKey) :
    (eget key.1).eval atomically world =
      (match world.db.contents (.ekey key) with
        | none => (0, 0)
        | some strScore => (1, (readHostOrder64 strScore).toInt64), world) := by
  rw [eget, Program.eval_bind, encodeEsetKey_eq, eval_dbGet]
  cases world.db.contents (.ekey key) <;> rfl

theorem eval_cancelExpiration (key : UserKey) (batch : List Update) :
    ∃ ret, (cancelExpiration key.1 (batch.map Update.encode)).eval atomically world =
      ((ret, (batch ++ cancelUpdates world.db.contents key).map Update.encode),
        world.delFastKey key.1) := by
  rw [cancelExpiration, Program.eval_bind, eval_delFastKey, edelOne, Program.eval_bind, eval_eget,
    World.db_delFastKey, cancelUpdates]
  cases world.db.contents (.ekey key) with
  | none => exact ⟨0, by simp⟩
  | some strScore =>
      refine ⟨1, ?_⟩
      simp only [List.map_append]
      rfl

theorem cancelUpdates_owner {contents : Contents} {key : UserKey} {update : Update}
    (mem : update ∈ cancelUpdates contents key) :
    (∃ score, update = ⟨.escore score key, none⟩) ∨ update = ⟨.ekey key, none⟩ := by
  unfold cancelUpdates at mem
  cases found : contents (.ekey key) with
  | none => simp [found] at mem
  | some strScore =>
      simp only [found, List.mem_cons, List.not_mem_nil, or_false] at mem
      rcases mem with rfl | rfl
      · exact Or.inl ⟨_, rfl⟩
      · exact Or.inr rfl

end Evaluation

end Vcdb
