import Vcdb.Keyspace.Deletion
import Vcdb.Keyspace.RequestDeed

/-!
# Steps of the deleter

What the background worker takes from the store, whatever it finds there.
-/

namespace Vcdb

/-- What the worker collects: elements that are to be deleted. -/
def Collected (batch : WriteBatch) : Prop :=
  ∀ op ∈ batch, ∃ raw, op = .delete raw ∧
    (raw.head? = some DataType.item ∨ raw.head? = some DataType.zscore)

/-- The delete key that is being dealt with has been decoded, and elements have been collected. -/
def DeleterPhase.Ready : DeleterPhase → Prop
  | idle | popped _ => True
  | items dk delKey batch | collected dk delKey batch =>
      decodeDeleteKey delKey = some dk ∧ Collected batch

/-- What a step of the worker does. -/
structure Swept (world after : World) : Prop where
  expiration : after.expiration = world.expiration
  ledger : after.db.ledger = world.db.ledger ∨ ∃ key version,
    world.db.life key = .deleted version ∧
      after.db.ledger = Function.update world.db.ledger key
        { world.db.ledger key with metaVal := none }
  fewer : ∀ raw, (after.db.get raw).isSome → after.db.get raw = world.db.get raw
  /-- A delete key goes together with the metadata that it was left for. -/
  marks : ∀ raw, raw.head? = some DataType.delete → (world.db.get raw).isSome →
    after.db.get raw = none → ∃ dk, decodeDeleteKey raw = some dk ∧
      after.db.life dk.key ≠ .deleted dk.version

section Sweeping

variable {world : World} {dk : DeleteKey} {delKey : Bytes} {batch : WriteBatch}

theorem Swept.of_same {after : World} (db : after.db = world.db)
    (expiration : after.expiration = world.expiration) : Swept world after where
  expiration := expiration
  ledger := Or.inl (congrArg DB.ledger db)
  fewer raw _ := by rw [db]
  marks raw _ found gone := by
    rw [← db, gone] at found
    cases found

theorem collected_keys {type : UInt8} (family : type = DataType.item ∨ type = DataType.zscore)
    (decode : Bytes → Option ItemKey) (dk : DeleteKey) (entries : List (Bytes × Bytes)) :
    Collected ((collectKeys type decode dk entries).map .delete) := by
  intro op mem
  obtain ⟨raw, listed, rfl⟩ := List.mem_map.mp mem
  refine ⟨raw, rfl, ?_⟩
  clear mem
  have head : raw.head? = some type := by
    induction entries with
    | nil => cases listed
    | cons entry entries ih =>
        obtain ⟨itemKey, val⟩ := entry
        rw [collectKeys] at listed
        split_ifs at listed with foreign
        · cases listed
        cases decoded : decode itemKey with
        | none =>
            rw [decoded] at listed
            cases listed
        | some ik =>
            rw [decoded] at listed
            simp only at listed
            split_ifs at listed
            · rcases List.mem_cons.mp listed with rfl | later
              · exact not_not.mp foreign
              · exact ih later
            · cases listed
  rcases family with rfl | rfl
  · exact Or.inl head
  · exact Or.inr head

theorem Collected.append {more : WriteBatch} (left : Collected batch) (right : Collected more) :
    Collected (batch ++ more) := fun op mem =>
  (List.mem_append.mp mem).elim (left op) (right op)

/-- Deletions leave nothing but what was there. -/
theorem get_apply_deletes {db : DB} (deletes : ∀ op ∈ batch, ∃ raw, op = .delete raw)
    (raw : Bytes) : (batch.apply db).get raw =
      if BatchOp.delete raw ∈ batch then none else db.get raw := by
  induction batch generalizing db with
  | nil => rfl
  | cons op batch ih =>
      obtain ⟨name, rfl⟩ := deletes op List.mem_cons_self
      refine (ih fun op mem => deletes op (List.mem_cons_of_mem _ mem)).trans ?_
      rw [BatchOp.apply, SortedMap.get_erase]
      by_cases own : raw = name
      · simp [own]
      · simp [own]

theorem head_of_decodeDeleteKey (decoded : decodeDeleteKey delKey = some dk) :
    delKey.head? = some DataType.delete := by
  cases delKey with
  | nil => cases decoded
  | cons first rest =>
      rw [decodeDeleteKey] at decoded
      split_ifs at decoded with foreign
      rw [not_not.mp foreign]
      rfl

theorem Collected.unledgered (collected : Collected batch) {op : BatchOp} (mem : op ∈ batch) :
    Unledgered op.key := by
  obtain ⟨raw, rfl, family⟩ := collected op mem
  rw [BatchOp.key, Unledgered]
  rcases family with item | score
  · simp only [item, ne_eq, Option.some.injEq]
    decide
  · simp only [score, ne_eq, Option.some.injEq]
    decide

theorem ledger_erase_metaKey (db : DB) (key : Bytes) :
    DB.ledger (db.erase (encodeMetaKey key)) =
      Function.update db.ledger key { db.ledger key with metaVal := none } := by
  funext other
  rw [Function.update_apply]
  have expiry := encodeEsetKey_ne_metaKey other key
  have index := fun score => encodeEscoreKey_ne_metaKey other key score
  by_cases same : other = key
  · subst same
    simp [DB.ledger, SortedMap.get_erase, expiry, index]
  · simp [DB.ledger, SortedMap.get_erase, expiry, index, encodeMetaKey_inj, same]

/-- The metadata are deleted just when the key is still deleted at the version. -/
theorem eval_deleteMetaKey_life (dk : DeleteKey) (batch : WriteBatch)
    (readable : world.db.life dk.key ≠ .unreadable) :
    (deleteMetaKey dk batch).eval atomically world = ((0, if world.db.life dk.key =
      .deleted dk.version then batch ++ [.delete (encodeMetaKey dk.key)] else batch), world) := by
  rw [deleteMetaKey, Program.eval_bind]
  have read : (dbGet (encodeMetaKey dk.key)).eval atomically world =
      (.ofOption (world.db.get (encodeMetaKey dk.key)), world) := rfl
  rw [read]
  rw [DB.life] at readable ⊢
  cases found : world.db.get (encodeMetaKey dk.key) with
  | none => rfl
  | some metaVal =>
      rw [found] at readable
      cases decoded : decodeMetaHeader metaVal with
      | none =>
          rw [Life.ofMeta, decoded] at readable
          exact absurd rfl readable
      | some header =>
          obtain ⟨header, rest⟩ := header
          obtain ⟨version, flag⟩ := decodeMetaHeader_eq_some decoded
          rw [life_of_header decoded]
          simp only [ReadStatus.ofOption, version, flag, Option.some_inj]
          by_cases dead : header.del = keyDeleteMask
          · by_cases own : header.version = dk.version
            · simp only [dead, own, and_self, if_true]
              rfl
            · simp only [dead, own, and_false, if_true, if_false, Life.deleted.injEq]
              rfl
          · simp only [dead, false_and, if_false, reduceCtorEq]
            rfl

/-- Deletions that have been committed. -/
theorem swept_apply {ops : WriteBatch} (deletes : ∀ op ∈ ops, ∃ raw, op = .delete raw)
    (ledger : (ops.apply world.db).ledger = world.db.ledger ∨ ∃ key version,
      world.db.life key = .deleted version ∧ (ops.apply world.db).ledger =
        Function.update world.db.ledger key { world.db.ledger key with metaVal := none })
    (marks : ∀ raw, raw.head? = some DataType.delete → BatchOp.delete raw ∈ ops →
      ∃ dk, decodeDeleteKey raw = some dk ∧
        (ops.apply world.db).life dk.key ≠ .deleted dk.version) :
    Swept world (world.withDB (ops.apply world.db)) where
  expiration := rfl
  ledger := ledger
  fewer raw found := by
    rw [World.db_withDB, get_apply_deletes deletes] at found ⊢
    split_ifs at found ⊢
    · cases found
    · rfl
  marks raw family found lost := by
    rw [World.db_withDB, get_apply_deletes deletes] at lost
    split_ifs at lost with listed
    · exact marks raw family listed
    · rw [lost] at found
      cases found

theorem swept_deleteKeyCommit (decoded : decodeDeleteKey delKey = some dk)
    (collected : Collected batch) (readable : world.db.life dk.key ≠ .unreadable) :
    Swept world ((deleteKeyCommit dk delKey batch).eval atomically world).2 := by
  have mark := head_of_decodeDeleteKey decoded
  have deletes : ∀ op ∈ batch ++ [.delete delKey], ∃ raw, op = .delete raw := by
    intro op mem
    rcases List.mem_append.mp mem with mem | mem
    · obtain ⟨raw, same, _⟩ := collected op mem
      exact ⟨raw, same⟩
    · exact ⟨delKey, List.mem_singleton.mp mem⟩
  have unledgered : (WriteBatch.apply (batch ++ [.delete delKey]) world.db).ledger =
      world.db.ledger := by
    refine ledger_of_unledgered fun op mem => ?_
    rcases List.mem_append.mp mem with mem | mem
    · exact collected.unledgered mem
    · obtain rfl := List.mem_singleton.mp mem
      rw [BatchOp.key, Unledgered]
      simp only [mark, ne_eq, Option.some.injEq]
      decide
  -- Of the delete keys only the one dealt with is in the batch.
  have marked : ∀ raw, raw.head? = some DataType.delete →
      BatchOp.delete raw ∈ batch ++ [.delete delKey] → raw = delKey := by
    intro raw family mem
    rcases List.mem_append.mp mem with mem | mem
    · obtain ⟨_, ⟨⟩, element⟩ := collected _ mem
      rw [family] at element
      exact absurd element (by decide)
    · exact BatchOp.delete.inj (List.mem_singleton.mp mem)
  have zero : ¬(0 : Int) = -1 := by decide
  have run := eval_deleteMetaKey_life dk (batch ++ [.delete delKey]) readable
  have after : ((deleteKeyCommit dk delKey batch).eval atomically world).2 =
      world.withDB (WriteBatch.apply (if world.db.life dk.key = .deleted dk.version then
        batch ++ [.delete delKey] ++ [.delete (encodeMetaKey dk.key)]
        else batch ++ [.delete delKey]) world.db) := by
    simp only [deleteKeyCommit, eval_recordKeyLock, Program.eval_bind, run, if_neg zero]
    rfl
  rw [after]
  by_cases dead : world.db.life dk.key = .deleted dk.version
  · have ledger : (WriteBatch.apply (batch ++ [.delete delKey] ++
        [.delete (encodeMetaKey dk.key)]) world.db).ledger = Function.update world.db.ledger dk.key
          { world.db.ledger dk.key with metaVal := none } := by
      rw [WriteBatch.apply_append]
      refine (ledger_erase_metaKey _ dk.key).trans ?_
      rw [unledgered]
    rw [if_pos dead]
    refine swept_apply (fun op mem => ?_) (Or.inr ⟨dk.key, dk.version, dead, ledger⟩)
      fun raw family listed => ?_
    · rcases List.mem_append.mp mem with mem | mem
      · exact deletes op mem
      · exact ⟨_, List.mem_singleton.mp mem⟩
    · rcases List.mem_append.mp listed with listed | listed
      · obtain rfl := marked raw family listed
        refine ⟨dk, decoded, ?_⟩
        have absent : (WriteBatch.apply (batch ++ [.delete raw] ++
            [.delete (encodeMetaKey dk.key)]) world.db).life dk.key = .absent := by
          refine (congrArg (fun records : KeyRecords => Life.ofMeta records.metaVal)
            (congrFun ledger dk.key)).trans ?_
          rw [Function.update_self]
          rfl
        rw [absent]
        exact fun same => (by cases same)
      · obtain ⟨⟩ := List.mem_singleton.mp listed
        exact absurd (Option.some_inj.mp family) (by decide)
  · rw [if_neg dead]
    refine swept_apply deletes (Or.inl unledgered) fun raw family listed => ?_
    obtain rfl := marked raw family listed
    refine ⟨dk, decoded, ?_⟩
    rwa [life_congr (congrFun unledgered dk.key)]

end Sweeping

/-- One step of the worker. -/
theorem runBGTask_swept {deleter : Deleter} (ready : deleter.phase.Ready) {world : World}
    (readable : ∀ key, world.db.life key ≠ .unreadable) :
    ((runBGTask deleter).eval atomically world).1.phase.Ready ∧
      Swept world ((runBGTask deleter).eval atomically world).2 := by
  obtain ⟨tasks, phase⟩ := deleter
  cases phase with
  | idle =>
      cases tasks with
      | nil => exact ⟨trivial, .of_same rfl rfl⟩
      | cons delKey tasks => exact ⟨trivial, .of_same rfl rfl⟩
  | popped delKey =>
      cases decoded : decodeDeleteKey delKey with
      | none =>
          simp only [runBGTask, decoded]
          exact ⟨trivial, .of_same rfl rfl⟩
      | some dk =>
          simp only [runBGTask, decoded]
          exact ⟨⟨decoded, collected_keys (Or.inl rfl) _ dk _⟩, .of_same rfl rfl⟩
  | items dk delKey batch =>
      exact ⟨⟨ready.1, ready.2.append (collected_keys (Or.inr rfl) _ dk _)⟩, .of_same rfl rfl⟩
  | collected dk delKey batch =>
      simp only [runBGTask, Program.eval_bind]
      exact ⟨trivial, swept_deleteKeyCommit ready.1 ready.2 (readable dk.key)⟩

end Vcdb
