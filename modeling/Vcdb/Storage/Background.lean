import Vcdb.Storage.Contents
import Vcdb.Storage.Iterator

/-!
# The background deleter

A worker takes delete keys from the store, collects the items and score entries of their key and
version, and deletes them together with the delete key.  The metadata goes with them when the key
has not been recreated in the meantime.
-/

namespace Vcdb

/-- The raw keys of one key and version at the front of a scan.  The scan stops at the first key
of another family, at a key that cannot be decoded, and at another key or version. -/
def collectKeys (type : UInt8) (decode : Bytes → Option ItemKey) (dk : DeleteKey) :
    List (Bytes × Bytes) → List Bytes
  | [] => []
  | (itemKey, _) :: rest =>
      if itemKey.head? ≠ some type then []
      else
        match decode itemKey with
        | none => []
        | some ik =>
            if ik.key = dk.key ∧ ik.version = dk.version then
              itemKey :: collectKeys type decode dk rest
            else []

def collectItems (db : DB) (dk : DeleteKey) : List Bytes :=
  collectKeys DataType.item decodeItemKey dk (iterator db (encodeHashKey dk.key [] dk.version))

def collectZscores (db : DB) (dk : DeleteKey) : List Bytes :=
  collectKeys DataType.zscore (fun str => (decodeZScoreItemKey str).map ZScoreItemKey.toItemKey) dk
    (iterator db (encodeZscorePrefix dk.key dk.version))

/-- Delete the metadata of a key that is still deleted at the version of the delete key. -/
def deleteMetaKey (dk : DeleteKey) (batch : WriteBatch) : Command (Int × WriteBatch) := do
  let metaKey := encodeMetaKey dk.key
  match ← dbGet metaKey with
  | .error => return (-1, batch)
  | .notFound => return (0, batch)
  | .ok metaVal =>
      match Decoder.readUint16 (metaVal.drop 1) with
      | none => return (-1, batch)
      | some (version, _) =>
          if metaVal[posDel]? = some keyDeleteMask ∧ version = dk.version then
            return (0, batch ++ [.delete metaKey])
          else return (0, batch)

/-- Add the items stored under the key and version to the batch. -/
def collectItemBatch (dk : DeleteKey) : Command WriteBatch := do
  let db ← getSnapshot
  return (collectItems db dk).map .delete

/-- Add the score entries stored under the key and version to the batch. -/
def collectZscoreBatch (dk : DeleteKey) (batch : WriteBatch) : Command WriteBatch := do
  let db ← getSnapshot
  return batch ++ (collectZscores db dk).map .delete

/-- Delete the collected keys, the delete key and possibly the metadata. -/
def deleteKeyCommit (dk : DeleteKey) (delKey : Bytes) (batch : WriteBatch) : Command Unit :=
  recordKeyLock dk.key do
    let (ret, batch) ← deleteMetaKey dk (batch ++ [.delete delKey])
    if ret = -1 then return ()
    else
      let _ ← commitBatch batch
      return ()

def deleteKeyLoop (delKey : Bytes) : Command Unit :=
  match decodeDeleteKey delKey with
  | none => return ()
  | some dk => do
      let batch ← collectItemBatch dk
      let batch ← collectZscoreBatch dk batch
      deleteKeyCommit dk delKey batch

/-- The delete keys found at the front of their range, at most `num` of them. -/
def loadDeleteKeysFromDb (db : DB) (num : Nat) : List Bytes :=
  ((iterator db [DataType.delete] [] (some num)).takeWhile
    fun entry => entry.1.head? = some DataType.delete).map Prod.fst

/-- Where the worker stands in its loop, with what it has collected so far. -/
inductive DeleterPhase
  | idle
  | popped (delKey : Bytes)
  | items (dk : DeleteKey) (delKey : Bytes) (batch : WriteBatch)
  | collected (dk : DeleteKey) (delKey : Bytes) (batch : WriteBatch)

/-- The worker and its queue of delete keys. -/
structure Deleter where
  tasks : List Bytes := []
  phase : DeleterPhase := .idle

/-- What the worker does until other commands can run again. -/
def runBGTask (deleter : Deleter) : Command Deleter :=
  match deleter.phase with
  | .idle =>
      match deleter.tasks with
      | [] => do
          let db ← getSnapshot
          return { deleter with tasks := loadDeleteKeysFromDb db 1000 }
      | delKey :: tasks => return { tasks, phase := .popped delKey }
  | .popped delKey =>
      match decodeDeleteKey delKey with
      | none => return { deleter with phase := .idle }
      | some dk => do
          let batch ← collectItemBatch dk
          return { deleter with phase := .items dk delKey batch }
  | .items dk delKey batch => do
      let batch ← collectZscoreBatch dk batch
      return { deleter with phase := .collected dk delKey batch }
  | .collected dk delKey batch => do
      deleteKeyCommit dk delKey batch
      return { deleter with phase := .idle }

/-- Left alone, the worker finishes a popped delete key in three steps. -/
theorem eval_deleteKeyLoop (world : World) (tasks : List Bytes) {delKey : Bytes} {dk : DeleteKey}
    (decoded : decodeDeleteKey delKey = some dk) :
    (do
      let deleter ← runBGTask { tasks, phase := .popped delKey }
      let deleter ← runBGTask deleter
      runBGTask deleter).eval atomically world =
      ({ tasks, phase := .idle }, ((deleteKeyLoop delKey).eval atomically world).2) := by
  simp only [runBGTask, deleteKeyLoop, decoded, Program.eval_bind, Program.pure_eq_done,
    Program.eval_done]

section Collecting

variable {key : UserKey} {version : UInt16}

theorem collectKeys_append {type : UInt8} {decode : Bytes → Option ItemKey} {dk : DeleteKey}
    {block rest : List (Bytes × Bytes)}
    (own : ∀ entry ∈ block, entry.1.head? = some type ∧ ∃ item, decode entry.1 = some item ∧
      item.key = dk.key ∧ item.version = dk.version)
    (foreign : ∀ entry ∈ rest, ∀ item, decode entry.1 = some item →
      ¬(item.key = dk.key ∧ item.version = dk.version)) :
    collectKeys type decode dk (block ++ rest) = block.map Prod.fst := by
  induction block with
  | nil =>
      cases rest with
      | nil => rfl
      | cons head rest =>
          obtain ⟨itemKey, val⟩ := head
          rw [List.nil_append, collectKeys]
          cases decoded : decode itemKey with
          | none => simp
          | some item => simp [foreign _ List.mem_cons_self item decoded]
  | cons head block ih =>
      obtain ⟨itemKey, val⟩ := head
      obtain ⟨family, item, decoded, mine⟩ := own _ List.mem_cons_self
      simp only at family decoded
      rw [List.cons_append, collectKeys, if_neg (not_not.mpr family), decoded]
      simp only [if_pos mine]
      rw [ih fun entry mem => own entry (List.mem_cons_of_mem _ mem)]
      rfl

/-- The worker collects exactly the items stored under the key and version. -/
theorem collectItems_eq (key : UserKey) (version : UInt16) (db : DB) :
    ∃ removed : List RecordKey, collectItems db ⟨key.1, version⟩ = removed.map RecordKey.encode ∧
      ∀ record, record ∈ removed ↔
        (∃ field, record = .item key version field) ∧ (db.contents record).isSome := by
  obtain ⟨rest, block, outside⟩ :=
    db.seek_eq_block (encodeKeyInternal DataType.item key.1 [] version)
  refine ⟨(db.items key.1 version).keys.map (.item key version), ?_, ?_⟩
  · rw [collectItems, iterator_eq_seek, encodeHashKey, block, collectKeys_append]
    · rw [List.map_map, List.map_map, SortedMap.keys, List.map_map]
      refine List.map_congr_left fun entry _ => ?_
      exact (encodeKeyInternal_eq_append _ _ entry.1 _).symm
    · simp only [List.mem_map]
      rintro _ ⟨entry, _, rfl⟩
      simp only [← encodeKeyInternal_eq_append]
      exact ⟨rfl, _, decodeItemKey_encode key entry.1 version, rfl, rfl⟩
    · rintro entry mem item decoded ⟨sameKey, sameVersion⟩
      rw [decodeItemKey, decodeItemKeyInternal_eq_some] at decoded
      simp only at sameKey sameVersion
      apply outside entry mem
      rw [decoded.2, sameKey, sameVersion, encodeKeyInternal_eq_append _ _ item.field]
      exact List.prefix_append _ _
  · intro record
    simp only [List.mem_map, SortedMap.mem_keys, DB.get_items]
    constructor
    · rintro ⟨field, found, rfl⟩
      exact ⟨⟨field, rfl⟩, found⟩
    · rintro ⟨⟨field, rfl⟩, found⟩
      exact ⟨field, found, rfl⟩

/-- A stored key with the prefix of a score index is an entry of that index. -/
theorem DB.WellKeyed.zscore {db : DB} (keyed : db.WellKeyed) {rest : Bytes}
    (found : (db.get (encodeZscorePrefix key.1 version ++ rest)).isSome) :
    ∃ score field, rest = be64 (encodeScore score) ++ field ∧
      encodeZscorePrefix key.1 version ++ rest =
        (RecordKey.zscore key version score field).encode := by
  obtain ⟨record, spelled⟩ := keyed _ found
  have whole : encodeZscorePrefix key.1 version ++ rest =
      encodeKeyInternal DataType.zscore key.1 rest version :=
    (encodeKeyInternal_eq_append _ _ _ _).symm
  have family : record.family = DataType.zscore := by
    rw [← Option.some_inj, ← RecordKey.head?_encode, ← spelled, whole]
    rfl
  cases record <;> simp only [RecordKey.family] at family
  case zscore key' version' score field =>
    rw [whole, RecordKey.encode, encodeZscoreKey_eq] at spelled
    obtain ⟨rfl, rfl, rfl⟩ := encodeKeyInternal_injective spelled
    exact ⟨score, field, rfl, whole⟩
  all_goals exact absurd family (by decide)

theorem decodeZScoreItemKey_encode (score : Double) (field : Bytes) :
    decodeZScoreItemKey (RecordKey.zscore key version score field).encode =
      some ⟨⟨key.1, version, field⟩, score⟩ := by
  have item : decodeItemKeyInternal DataType.zscore
      (RecordKey.zscore key version score field).encode =
      some ⟨key.1, version, be64 (encodeScore score) ++ field⟩ :=
    decodeItemKeyInternal_eq_some.mpr ⟨key.2, rfl⟩
  simp [decodeZScoreItemKey, item]

/-- The worker collects exactly the score entries stored under the key and version. -/
theorem collectZscores_eq (key : UserKey) (version : UInt16) {db : DB} (keyed : db.WellKeyed) :
    ∃ removed : List RecordKey, collectZscores db ⟨key.1, version⟩ = removed.map RecordKey.encode ∧
      ∀ record, record ∈ removed ↔
        (∃ score field, record = .zscore key version score field) ∧
          (db.contents record).isSome := by
  obtain ⟨rest, block, outside⟩ := db.seek_eq_block (encodeZscorePrefix key.1 version)
  have entryOf : ∀ entry ∈ (db.under (encodeZscorePrefix key.1 version)).entries,
      (db.get (encodeZscorePrefix key.1 version ++ entry.1)).isSome := by
    intro entry mem
    rw [← SortedMap.get_under, SortedMap.mem_entries.mp mem]
    rfl
  have collected : collectZscores db ⟨key.1, version⟩ =
      (db.under (encodeZscorePrefix key.1 version)).keys.map
        fun tail => encodeZscorePrefix key.1 version ++ tail := by
    rw [collectZscores, iterator_eq_seek, block, collectKeys_append]
    · rw [List.map_map, SortedMap.keys, List.map_map]
      rfl
    · simp only [List.mem_map]
      rintro _ ⟨entry, mem, rfl⟩
      obtain ⟨score, field, _, spelled⟩ := keyed.zscore (entryOf entry mem)
      simp only [spelled, decodeZScoreItemKey_encode]
      exact ⟨rfl, _, rfl, rfl, rfl⟩
    · rintro entry mem item decoded ⟨sameKey, sameVersion⟩
      simp only [Option.map_eq_some_iff, decodeZScoreItemKey, Option.bind_eq_bind,
        Option.bind_eq_some_iff, decodeItemKeyInternal_eq_some] at decoded
      obtain ⟨_, ⟨inner, ⟨_, spelled⟩, _, _, made⟩, rfl⟩ := decoded
      simp only [Option.some.injEq] at made
      subst made
      simp only at sameKey sameVersion
      apply outside entry mem
      rw [spelled, sameKey, sameVersion, encodeKeyInternal_eq_append _ _ inner.field]
      exact List.prefix_append _ _
  have spelling : ∀ tail ∈ (db.under (encodeZscorePrefix key.1 version)).keys,
      ∃ record : RecordKey, encodeZscorePrefix key.1 version ++ tail = record.encode ∧
        (∃ score field, record = .zscore key version score field) ∧
          (db.contents record).isSome := by
    intro tail mem
    rw [SortedMap.mem_keys, SortedMap.get_under] at mem
    obtain ⟨score, field, _, spelled⟩ := keyed.zscore mem
    exact ⟨_, spelled, ⟨score, field, rfl⟩, by rw [DB.contents, ← spelled]; exact mem⟩
  have : Nonempty RecordKey := ⟨.metadata key⟩
  choose! recordOf encoded isScore using spelling
  refine ⟨(db.under (encodeZscorePrefix key.1 version)).keys.map recordOf, ?_, ?_⟩
  · rw [collected, List.map_map]
    exact List.map_congr_left encoded
  · intro record
    rw [List.mem_map]
    constructor
    · rintro ⟨tail, mem, rfl⟩
      exact isScore tail mem
    · rintro ⟨⟨score, field, rfl⟩, found⟩
      have spelled : (RecordKey.zscore key version score field).encode =
          encodeZscorePrefix key.1 version ++ (be64 (encodeScore score) ++ field) := by
        rw [RecordKey.encode, encodeZscoreKey_eq, encodeKeyInternal_eq_append]
        rfl
      have mem : be64 (encodeScore score) ++ field ∈
          (db.under (encodeZscorePrefix key.1 version)).keys := by
        rw [SortedMap.mem_keys, SortedMap.get_under, ← spelled]
        exact found
      refine ⟨_, mem, RecordKey.encode_injective ?_⟩
      rw [← encoded _ mem, spelled]

end Collecting

end Vcdb
