import Vcdb.Keyspace.Representation
import Vcdb.Storage.Background

/-!
# Finishing deletions

What a step of the background deleter changes, and what stays true of its queue and of the batch it
is collecting while other commands run.
-/

namespace Vcdb

theorem decodeMetaHeader_eq_some {metaVal rest : Bytes} {header : MetaHeader}
    (decoded : decodeMetaHeader metaVal = some (header, rest)) :
    Decoder.readUint16 (metaVal.drop 1) = some (header.version, header.del :: rest) ∧
      metaVal[posDel]? = some header.del := by
  match metaVal, decoded with
  | type :: high :: low :: del :: tail, decoded =>
      simp only [decodeMetaHeader] at decoded
      split_ifs at decoded
      simp only [Option.some.injEq, Prod.mk.injEq] at decoded
      obtain ⟨rfl, rfl⟩ := decoded
      exact ⟨rfl, rfl⟩

namespace Contents

/-- The metadata of a key, if any, has a header. -/
def Readable (contents : Contents) (key : UserKey) : Prop :=
  ∀ metaVal, contents (.metadata key) = some metaVal → (decodeMetaHeader metaVal).isSome

theorem deleted_iff {contents : Contents} {key : UserKey} {metaVal rest : Bytes}
    {header : MetaHeader} (found : contents (.metadata key) = some metaVal)
    (decoded : decodeMetaHeader metaVal = some (header, rest)) (version : UInt16) :
    contents.Deleted key version ↔ header.del = keyDeleteMask ∧ header.version = version := by
  constructor
  · rintro ⟨metaVal', header', rest', found', decoded', sameVersion, flag⟩
    rw [found, Option.some_inj] at found'
    rw [← found', decoded, Option.some_inj, Prod.mk.injEq] at decoded'
    rw [decoded'.1]
    exact ⟨flag, sameVersion⟩
  · rintro ⟨flag, sameVersion⟩
    exact ⟨metaVal, header, rest, found, decoded, sameVersion, flag⟩

end Contents

/-- What a finished deletion leaves: nothing of the version, and no metadata if the key was still
deleted at that version. -/
structure Finished (key : UserKey) (version : UInt16) (before after : Contents) : Prop where
  clean : after.Clean key version
  done : after (.delete key version) = none
  metadata : before.Deleted key version ∧ after (.metadata key) = none ∨
    ¬before.Deleted key version ∧ after (.metadata key) = before (.metadata key)
  frame : ∀ record : RecordKey, (∀ field, record ≠ .item key version field) →
    (∀ score field, record ≠ .zscore key version score field) → record ≠ .delete key version →
    record ≠ .metadata key → after record = before record

section Commit

variable {world : World} {key : UserKey} {version : UInt16}

theorem eval_deleteMetaKey (version : UInt16) (readable : world.db.contents.Readable key)
    (batch : WriteBatch) :
    world.db.contents.Deleted key version ∧
        (deleteMetaKey ⟨key.1, version⟩ batch).eval atomically world =
          ((0, batch ++ [.delete (encodeMetaKey key.1)]), world) ∨
      ¬world.db.contents.Deleted key version ∧
        (deleteMetaKey ⟨key.1, version⟩ batch).eval atomically world = ((0, batch), world) := by
  simp only [deleteMetaKey, Program.eval_bind, encodeMetaKey_eq, eval_dbGet]
  cases found : world.db.contents (.metadata key) with
  | none =>
      refine Or.inr ⟨?_, rfl⟩
      rintro ⟨metaVal, header, rest, found', _⟩
      rw [found] at found'
      exact absurd found' (by simp)
  | some metaVal =>
      obtain ⟨⟨header, rest⟩, decoded⟩ := Option.isSome_iff_exists.mp (readable metaVal found)
      obtain ⟨readVersion, flag⟩ := decodeMetaHeader_eq_some decoded
      simp only [ReadStatus.ofOption, readVersion, flag, Option.some_inj]
      rw [Contents.deleted_iff found decoded]
      split_ifs with deleted
      · exact Or.inl ⟨deleted, rfl⟩
      · exact Or.inr ⟨deleted, rfl⟩

/-- Committing a batch that covers everything stored under the version finishes the deletion. -/
theorem eval_deleteKeyCommit (readable : world.db.contents.Readable key)
    {removed : List RecordKey}
    (elements : ∀ record ∈ removed, (∃ field, record = .item key version field) ∨
      ∃ score field, record = .zscore key version score field)
    (items : ∀ field, (world.db.contents (.item key version field)).isSome →
      .item key version field ∈ removed)
    (zscores : ∀ score field, (world.db.contents (.zscore key version score field)).isSome →
      .zscore key version score field ∈ removed) :
    ∃ db, (deleteKeyCommit ⟨key.1, version⟩ (RecordKey.delete key version).encode
          (removed.map fun record => .delete record.encode)).eval atomically world =
        ((), world.withDB db) ∧
      world.db.Updated db ∧ Finished key version world.db.contents db.contents := by
  have batchEq : ∀ tail : List RecordKey,
      removed.map (fun record => BatchOp.delete record.encode) ++
          [.delete (RecordKey.delete key version).encode] ++
          tail.map (fun record => .delete record.encode) =
        ((removed ++ .delete key version :: tail).map fun record => (⟨record, none⟩ : Update)).map
          Update.encode := by
    intro tail
    simp [Update.encode, Function.comp_def]
  -- The metadata is the only record both outcomes treat differently.
  have outcome : ∀ tail : List RecordKey,
      (tail = [.metadata key] ∧ world.db.contents.Deleted key version ∨
        tail = [] ∧ ¬world.db.contents.Deleted key version) →
      Finished key version world.db.contents (world.db.contents.applyAll
        ((removed ++ .delete key version :: tail).map fun record => ⟨record, none⟩)) := by
    intro tail cases
    have memTail : ∀ record ∈ tail, record = .metadata key := by
      rcases cases with ⟨rfl, _⟩ | ⟨rfl, _⟩ <;> simp
    constructor
    · refine ⟨fun field => ?_, fun score field => ?_⟩ <;> rw [Contents.applyAll_deletes]
      · split_ifs with mem
        · rfl
        · by_contra present
          exact mem (List.mem_append_left _
            (items field (Option.isSome_iff_ne_none.mpr present)))
      · split_ifs with mem
        · rfl
        · by_contra present
          exact mem (List.mem_append_left _
            (zscores score field (Option.isSome_iff_ne_none.mpr present)))
    · rw [Contents.applyAll_deletes, if_pos (by simp)]
    · rw [Contents.applyAll_deletes]
      have notElement : RecordKey.metadata key ∉ removed := by
        intro mem
        rcases elements _ mem with ⟨field, same⟩ | ⟨score, field, same⟩ <;> simp at same
      rcases cases with ⟨rfl, deleted⟩ | ⟨rfl, alive⟩
      · exact Or.inl ⟨deleted, if_pos (by simp)⟩
      · exact Or.inr ⟨alive, if_neg (by simp [notElement])⟩
    · intro record noItem noScore noDelete noMeta
      rw [Contents.applyAll_deletes, if_neg]
      intro mem
      rcases List.mem_append.mp mem with mem | mem
      · rcases elements _ mem with ⟨field, same⟩ | ⟨score, field, same⟩
        · exact noItem field same
        · exact noScore score field same
      · rcases List.mem_cons.mp mem with same | mem
        · exact noDelete same
        · exact noMeta (memTail record mem)
  have commit : ∀ {tail : List RecordKey} {batch : WriteBatch},
      batch = ((removed ++ .delete key version :: tail).map fun record =>
        (⟨record, none⟩ : Update)).map Update.encode →
      DB.contents (batch.apply world.db) = world.db.contents.applyAll
        ((removed ++ .delete key version :: tail).map fun record => ⟨record, none⟩) := by
    rintro tail batch rfl
    exact DB.contents_apply _ _
  have zero : ¬((0 : Int) = -1) := by decide
  rcases eval_deleteMetaKey version readable
      (removed.map (fun record => BatchOp.delete record.encode) ++
        [.delete (RecordKey.delete key version).encode]) with ⟨deleted, run⟩ | ⟨alive, run⟩
  · have whole := batchEq [.metadata key]
    refine ⟨_, ?_, ⟨_, congrArg (WriteBatch.apply · world.db) whole⟩, ?_⟩
    · simp only [deleteKeyCommit, eval_recordKeyLock, Program.eval_bind, run, if_neg zero,
        eval_commitBatch]
      rfl
    · rw [commit whole]
      exact outcome _ (Or.inl ⟨rfl, deleted⟩)
  · have whole := batchEq []
    rw [List.map_nil, List.append_nil] at whole
    refine ⟨_, ?_, ⟨_, congrArg (WriteBatch.apply · world.db) whole⟩, ?_⟩
    · simp only [deleteKeyCommit, eval_recordKeyLock, Program.eval_bind, run, if_neg zero,
        eval_commitBatch]
      rfl
    · rw [commit whole]
      exact outcome _ (Or.inr ⟨rfl, alive⟩)

end Commit

namespace Finished

variable {contents after : Contents} {key : UserKey} {version : UInt16}

theorem delete_of_ne (finished : Finished key version contents after) {key' : UserKey}
    {version' : UInt16} (ne : RecordKey.delete key' version' ≠ .delete key version) :
    after (.delete key' version') = contents (.delete key' version') :=
  finished.frame _ (by simp) (by simp) ne (by simp)

theorem item_le (finished : Finished key version contents after) (key' : UserKey)
    (version' : UInt16) (field : Bytes) :
    after (.item key' version' field) = none ∨
      after (.item key' version' field) = contents (.item key' version' field) := by
  by_cases same : key' = key ∧ version' = version
  · obtain ⟨rfl, rfl⟩ := same
    exact Or.inl (finished.clean.1 field)
  · exact Or.inr (finished.frame _ (by simpa using fun h h' => absurd ⟨h, h'⟩ same) (by simp)
      (by simp) (by simp))

theorem zscore_le (finished : Finished key version contents after) (key' : UserKey)
    (version' : UInt16) (score : Double) (field : Bytes) :
    after (.zscore key' version' score field) = none ∨
      after (.zscore key' version' score field) = contents (.zscore key' version' score field) := by
  by_cases same : key' = key ∧ version' = version
  · obtain ⟨rfl, rfl⟩ := same
    exact Or.inl (finished.clean.2 score field)
  · exact Or.inr (finished.frame _ (by simp)
      (by simpa using fun _ _ h h' => absurd ⟨h, h'⟩ same) (by simp) (by simp))

theorem owner_ne (finished : Finished key version contents after) {record : RecordKey}
    (other : record.owner ≠ key) : after record = contents record := by
  refine finished.frame record ?_ ?_ ?_ ?_
  · rintro field rfl
    exact other rfl
  · rintro score field rfl
    exact other rfl
  · rintro rfl
    exact other rfl
  · rintro rfl
    exact other rfl

/-- Finishing a pending deletion does not change what any key holds. -/
theorem keyValid (finished : Finished key version contents after)
    (pending : (contents (.delete key version)).isSome) {key' : UserKey}
    {state : Option (UInt16 × Value)} (valid : KeyValid contents key' state) :
    KeyValid after key' state := by
  by_cases own : key' = key
  · subst own
    have idle : ∀ value, state ≠ some (version, value) := by
      rintro value rfl
      rw [valid.livePending version value rfl] at pending
      exact absurd pending (by simp)
    have deletedOf : ∀ w, after.Deleted key' w → contents.Deleted key' w ∧ w ≠ version := by
      rintro w ⟨metaVal, header, rest, found, decoded, sameVersion, flag⟩
      rcases finished.metadata with ⟨_, gone⟩ | ⟨alive, kept⟩
      · rw [gone] at found
        exact absurd found (by simp)
      · rw [kept] at found
        have deleted : contents.Deleted key' w :=
          ⟨metaVal, header, rest, found, decoded, sameVersion, flag⟩
        exact ⟨deleted, by rintro rfl; exact alive deleted⟩
    constructor
    · have represented := valid.represented
      match state, represented with
      | none, represented =>
          rcases finished.metadata with ⟨_, gone⟩ | ⟨_, kept⟩
          · exact Or.inl gone
          · simpa only [Contents.Deleted, kept] using represented
      | some (w, value), represented =>
          have other : w ≠ version := by
            rintro rfl
            exact idle value rfl
          have live : contents.LiveAs key' w value := represented
          refine live.congr ?_ (fun field => ?_) (fun score field => ?_)
          · exact (finished.metadata.resolve_left fun h => live.not_deleted _ h.1).2
          · exact finished.frame _ (by simp [other]) (by simp) (by simp) (by simp)
          · exact finished.frame _ (by simp) (by simp [other]) (by simp) (by simp)
    · intro w notLive
      by_cases same : w = version
      · exact Or.inl (same ▸ finished.clean)
      · rw [finished.delete_of_ne (by simp [same])]
        refine (valid.leftover w notLive).imp_left fun clean =>
          ⟨fun field => ?_, fun score field => ?_⟩
        · rw [finished.frame _ (by simp [same]) (by simp) (by simp) (by simp), clean.1]
        · rw [finished.frame _ (by simp) (by simp [same]) (by simp) (by simp), clean.2]
    · intro w deleted
      obtain ⟨was, other⟩ := deletedOf w deleted
      rw [finished.delete_of_ne (by simp [other])]
      exact valid.deletedPending w was
    · rintro w value rfl
      rw [finished.delete_of_ne (by
        simp only [ne_eq, RecordKey.delete.injEq, true_and]
        rintro rfl
        exact idle value rfl)]
      exact valid.livePending w value rfl
  · exact valid.congr fun record mine => finished.owner_ne (mine ▸ own)

end Finished

/-- A delete key of the store. -/
def Pending (contents : Contents) (delKey : Bytes) : Prop :=
  ∃ key version, delKey = (RecordKey.delete key version).encode ∧
    (contents (.delete key version)).isSome

/-- The batch of a deletion under way: it removes records of the version only, and all its items. -/
structure Collecting (contents : Contents) (dk : DeleteKey) (delKey : Bytes) (batch : WriteBatch)
    (key : UserKey) (version : UInt16) (removed : List RecordKey) : Prop where
  dkEq : dk = ⟨key.1, version⟩
  delKeyEq : delKey = (RecordKey.delete key version).encode
  pending : (contents (.delete key version)).isSome
  batchEq : batch = removed.map fun record => .delete record.encode
  elements : ∀ record ∈ removed, (∃ field, record = .item key version field) ∨
    ∃ score field, record = .zscore key version score field
  items : ∀ field, (contents (.item key version field)).isSome → .item key version field ∈ removed

/-- What the worker holds agrees with the store. -/
def DeleterPhase.Valid (contents : Contents) (tasks : List Bytes) : DeleterPhase → Prop
  | idle => True
  | popped delKey => Pending contents delKey ∧ delKey ∉ tasks
  | items dk delKey batch =>
      delKey ∉ tasks ∧ ∃ key version removed,
        Collecting contents dk delKey batch key version removed
  | collected dk delKey batch =>
      delKey ∉ tasks ∧ ∃ key version removed,
        Collecting contents dk delKey batch key version removed ∧
        ∀ score field, (contents (.zscore key version score field)).isSome →
          .zscore key version score field ∈ removed

/-- The queue holds delete keys of the store, each once, and the phase agrees with the store. -/
structure Deleter.Valid (contents : Contents) (deleter : Deleter) : Prop where
  pending : ∀ delKey ∈ deleter.tasks, Pending contents delKey
  nodup : deleter.tasks.Nodup
  phase : deleter.phase.Valid contents deleter.tasks

section Worker

variable {contents after : Contents} {deleter : Deleter}

theorem Deleter.valid_initial (contents : Contents) : Deleter.Valid contents {} :=
  ⟨by simp, List.nodup_nil, trivial⟩

theorem Pending.mono {delKey : Bytes} (keeps : KeepsPending contents after)
    (pending : Pending contents delKey) : Pending after delKey := by
  obtain ⟨key, version, rfl, found⟩ := pending
  exact ⟨key, version, rfl, (keeps key version found).1⟩

theorem Collecting.mono {dk : DeleteKey} {delKey : Bytes} {batch : WriteBatch} {key : UserKey}
    {version : UInt16} {removed : List RecordKey} (keeps : KeepsPending contents after)
    (collecting : Collecting contents dk delKey batch key version removed) :
    Collecting after dk delKey batch key version removed where
  dkEq := collecting.dkEq
  delKeyEq := collecting.delKeyEq
  pending := (keeps key version collecting.pending).1
  batchEq := collecting.batchEq
  elements := collecting.elements
  items field found :=
    collecting.items field ((keeps key version collecting.pending).2.1 field found)

/-- Other commands that keep pending deletions do not disturb the worker. -/
theorem Deleter.Valid.mono (valid : deleter.Valid contents) (keeps : KeepsPending contents after) :
    deleter.Valid after where
  pending delKey mem := (valid.pending delKey mem).mono keeps
  nodup := valid.nodup
  phase := by
    have phase := valid.phase
    cases position : deleter.phase with
    | idle => trivial
    | popped delKey =>
        rw [position] at phase
        exact ⟨phase.1.mono keeps, phase.2⟩
    | items dk delKey batch =>
        rw [position] at phase
        obtain ⟨notQueued, key, version, removed, collecting⟩ := phase
        exact ⟨notQueued, key, version, removed, collecting.mono keeps⟩
    | collected dk delKey batch =>
        rw [position] at phase
        obtain ⟨notQueued, key, version, removed, collecting, zscores⟩ := phase
        refine ⟨notQueued, key, version, removed, collecting.mono keeps, ?_⟩
        intro score field found
        exact zscores score field ((keeps key version collecting.pending).2.2 score field found)

theorem mem_iterator {db : DB} {start : Bytes} {limit : Option Nat} {entry : Bytes × Bytes}
    (mem : entry ∈ iterator db start [] limit) : entry ∈ db.seek start := by
  unfold iterator at mem
  cases limit with
  | none => exact (List.takeWhile_sublist _).subset mem
  | some n => exact (List.takeWhile_sublist _).subset ((List.take_sublist _ _).subset mem)

/-- The keys loaded into the queue are delete keys of the store. -/
theorem loadDeleteKeysFromDb_pending {db : DB} (keyed : db.WellKeyed) {num : Nat} {delKey : Bytes}
    (mem : delKey ∈ loadDeleteKeysFromDb db num) : Pending db.contents delKey := by
  unfold loadDeleteKeysFromDb at mem
  obtain ⟨entry, scanned, rfl⟩ := List.mem_map.mp mem
  have family := List.mem_takeWhile_imp scanned
  rw [decide_eq_true_eq] at family
  have found := (SortedMap.mem_seek.mp
    (mem_iterator ((List.takeWhile_sublist _).subset scanned))).2
  obtain ⟨record, spelled⟩ := keyed entry.1 (by rw [found]; rfl)
  rw [spelled, RecordKey.head?_encode, Option.some_inj] at family
  cases record with
  | delete key version =>
      exact ⟨key, version, spelled, by rw [DB.contents, ← spelled, found]; rfl⟩
  | metadata key => exact absurd family (by simp only [RecordKey.family]; decide)
  | item key version field => exact absurd family (by simp only [RecordKey.family]; decide)
  | zscore key version score field => exact absurd family (by simp only [RecordKey.family]; decide)
  | ekey key => exact absurd family (by simp only [RecordKey.family]; decide)
  | escore score key => exact absurd family (by simp only [RecordKey.family]; decide)

theorem loadDeleteKeysFromDb_nodup (db : DB) (num : Nat) : (loadDeleteKeysFromDb db num).Nodup := by
  have sorted := db.seek_sorted [DataType.delete]
  have sub : ((iterator db [DataType.delete] [] (some num)).takeWhile
      fun entry => entry.1.head? = some DataType.delete).Sublist (db.seek [DataType.delete]) :=
    ((List.takeWhile_sublist _).trans (List.take_sublist _ _)).trans (List.takeWhile_sublist _)
  have keys := sorted.sublist sub
  rw [loadDeleteKeysFromDb, List.Nodup, List.pairwise_map]
  exact keys.imp fun below => below.ne

theorem decodeDeleteKey_encode (key : UserKey) (version : UInt16) :
    decodeDeleteKey (RecordKey.delete key version).encode = some ⟨key.1, version⟩ := by
  have read := Decoder.readUint16_be16 version []
  rw [List.append_nil] at read
  simp only [RecordKey.encode, encodeDeleteKey, decodeDeleteKey]
  rw [if_neg (by simp), Decoder.read16Data_eq key.2]
  simp [read]

/-- A step of the worker changes nothing, or finishes one pending deletion. -/
theorem runBGTask_step {world : World} (keyed : world.db.WellKeyed)
    (readable : ∀ key, world.db.contents.Readable key)
    (valid : deleter.Valid world.db.contents) :
    ∃ deleter' db, (runBGTask deleter).eval atomically world = (deleter', world.withDB db) ∧
      world.db.Updated db ∧ deleter'.Valid db.contents ∧
      (db = world.db ∨ ∃ key version, (world.db.contents (.delete key version)).isSome ∧
        Finished key version world.db.contents db.contents) := by
  obtain ⟨tasks, position⟩ := deleter
  obtain ⟨pending, nodup, phase⟩ := valid
  simp only at pending nodup phase
  cases position with
  | idle =>
      cases tasks with
      | nil =>
          refine ⟨_, world.db, rfl, .refl _, ⟨?_, ?_, trivial⟩, Or.inl rfl⟩
          · exact fun delKey mem => loadDeleteKeysFromDb_pending keyed mem
          · exact loadDeleteKeysFromDb_nodup _ _
      | cons delKey tasks =>
          obtain ⟨notQueued, nodup⟩ := List.nodup_cons.mp nodup
          refine ⟨_, world.db, rfl, .refl _, ⟨?_, nodup, ?_, notQueued⟩, Or.inl rfl⟩
          · exact fun delKey' mem => pending delKey' (List.mem_cons_of_mem _ mem)
          · exact pending delKey List.mem_cons_self
  | popped delKey =>
      obtain ⟨⟨key, version, rfl, found⟩, notQueued⟩ := phase
      obtain ⟨removed, collected, mem⟩ := collectItems_eq key version world.db
      refine ⟨⟨tasks, .items ⟨key.1, version⟩ _ (removed.map fun r => .delete r.encode)⟩, world.db,
        ?_, .refl _, ⟨pending, nodup, notQueued, key, version, removed, ?_⟩, Or.inl rfl⟩
      · simp only [runBGTask, decodeDeleteKey_encode, collectItemBatch, Program.eval_bind,
          eval_getSnapshot, Program.pure_eq_done, Program.eval_done, collected, List.map_map]
        rfl
      · exact
          { dkEq := rfl, delKeyEq := rfl, pending := found, batchEq := rfl
            elements := fun record inBatch => Or.inl ((mem record).mp inBatch).1
            items := fun field present => (mem _).mpr ⟨⟨field, rfl⟩, present⟩ }
  | items dk delKey batch =>
      obtain ⟨notQueued, key, version, removed, collecting⟩ := phase
      obtain ⟨rfl, rfl, found, rfl, elements, items⟩ := collecting
      obtain ⟨scores, collected, mem⟩ := collectZscores_eq key version keyed
      refine ⟨⟨tasks, .collected ⟨key.1, version⟩ _
          ((removed ++ scores).map fun r => .delete r.encode)⟩, world.db, ?_, .refl _,
        ⟨pending, nodup, notQueued, key, version, removed ++ scores, ?_, ?_⟩, Or.inl rfl⟩
      · simp only [runBGTask, collectZscoreBatch, Program.eval_bind, eval_getSnapshot,
          Program.pure_eq_done, Program.eval_done, collected, List.map_map, List.map_append]
        rfl
      · refine
          { dkEq := rfl, delKeyEq := rfl, pending := found, batchEq := rfl, elements := ?_,
            items := ?_ }
        · intro record inBatch
          rcases List.mem_append.mp inBatch with inBatch | inBatch
          · exact elements record inBatch
          · exact Or.inr ((mem record).mp inBatch).1
        · exact fun field present => List.mem_append_left _ (items field present)
      · exact fun score field present =>
          List.mem_append_right _ ((mem _).mpr ⟨⟨score, field, rfl⟩, present⟩)
  | collected dk delKey batch =>
      obtain ⟨notQueued, key, version, removed, collecting, zscores⟩ := phase
      obtain ⟨rfl, rfl, found, rfl, elements, items⟩ := collecting
      obtain ⟨db, run, updated, finished⟩ :=
        eval_deleteKeyCommit (readable key) elements items zscores
      refine ⟨⟨tasks, .idle⟩, db, ?_, updated, ⟨?_, nodup, trivial⟩,
        Or.inr ⟨key, version, found, finished⟩⟩
      · simp only [runBGTask, Program.eval_bind, run, Program.pure_eq_done, Program.eval_done]
      · intro delKey mem
        obtain ⟨key', version', rfl, found'⟩ := pending delKey mem
        refine ⟨key', version', rfl, ?_⟩
        rw [finished.delete_of_ne]
        · exact found'
        · rintro same
          rw [same] at mem
          exact notQueued mem

end Worker

end Vcdb
