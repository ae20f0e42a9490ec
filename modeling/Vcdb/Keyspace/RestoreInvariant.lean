import Vcdb.Keyspace.RestoreList
import Vcdb.Storage.ScoreIndex

/-!
# What an accepted RESTORE leaves

The elements of a dump are counted as they are read, and stored by name.  The two agree only when
no name is given twice, and a collection without elements is not written at all.
-/

namespace Vcdb

section Batches

variable {db : DB}

/-- The part of an update behind a prefix of its key. -/
def BatchOp.behind (start : Bytes) : BatchOp → Option (Bytes × Bytes)
  | put key val => (SortedMap.stripPrefix start key).map fun field => (field, val)
  | delete _ => none

/-- A batch of puts changes the entries under a prefix as the puts under it do. -/
theorem WriteBatch.under_apply (start : Bytes) {batch : WriteBatch}
    (puts : ∀ op ∈ batch, ∃ key val, op = .put key val) :
    (batch.apply db).under start =
      (db.under start).putAll (batch.filterMap (BatchOp.behind start)) := by
  induction batch generalizing db with
  | nil => rfl
  | cons op batch ih =>
      obtain ⟨key, val, rfl⟩ := puts op List.mem_cons_self
      have later := @ih (db.put key val) fun other mem => puts other (List.mem_cons_of_mem _ mem)
      refine later.trans ?_
      cases stripped : SortedMap.stripPrefix start key with
      | none =>
          have foreign : ¬start <+: key := by
            rintro ⟨field, rfl⟩
            rw [SortedMap.stripPrefix_eq_some.mpr rfl] at stripped
            cases stripped
          rw [SortedMap.under_put_of_not_prefix db val foreign, List.filterMap_cons_none]
          rw [BatchOp.behind, stripped]
          rfl
      | some field =>
          obtain rfl := SortedMap.stripPrefix_eq_some.mp stripped
          rw [SortedMap.under_put_of_prefix, List.filterMap_cons_some (b := (field, val))]
          · rfl
          · rw [BatchOp.behind, stripped]
            rfl

end Batches

/-- The names are as many as they are together with the items already stored. -/
def Distinct (names : List Bytes) (items : SortedMap Bytes Bytes) : Prop :=
  names ≠ [] ∧ names.length = (names.toFinset ∪ items.domain).card

/-- Scores are numbers, a member has one score, and what is already stored agrees with them. -/
structure ScoresFit (scores : List (Bytes × Double)) (items index : SortedMap Bytes Bytes) :
    Prop where
  number : ∀ element ∈ scores, element.2.isNan = false
  single : ∀ element ∈ scores, ∀ other ∈ scores, element.1 = other.1 → element.2 = other.2
  keptItems : ∀ member val, items.get member = some val → (∀ element ∈ scores, element.1 ≠ member) →
    ∃ score : Double, val = hostOrder64 score ∧ score.isNan = false ∧
      (index.get (scoreEntry member score)).isSome
  keptEntries : ∀ entry, (index.get entry).isSome →
    ∃ member score, entry = scoreEntry member score ∧
      ((member, score) ∈ scores ∨
        (∀ element ∈ scores, element.1 ≠ member) ∧ items.get member = some (hostOrder64 score))

namespace RdbValue

/-- What the elements of a value must satisfy, given what is stored under the version they get. -/
def Fits (items index : SortedMap Bytes Bytes) : RdbValue → Prop
  | string _ => True
  | list single cells =>
      single = false ∧
        Distinct ((List.range cells.length).map fun i => be64 (UInt64.ofNat i)) items
  | set members => Distinct members items
  | zset scores => Distinct (scores.map Prod.fst) items ∧ ScoresFit scores items index
  | hash fields => Distinct (fields.map Prod.fst) items

/-- The items a value writes. -/
def bindings : RdbValue → List (Bytes × Bytes)
  | string _ => []
  | list single cells =>
      (delivered single cells).mapIdx fun i cell => (be64 (UInt64.ofNat i), cell)
  | set members => members.map fun member => (member, [])
  | zset scores => scores.map fun element => (element.1, hostOrder64 element.2)
  | hash fields => fields

/-- The entries of the score index a value writes. -/
def entries : RdbValue → List (Bytes × Bytes)
  | zset scores => scores.map fun element => (scoreEntry element.1 element.2, [])
  | _ => []

section Written

variable (key : Bytes) (version : UInt16)

theorem filterMap_eq_map {α β : Type} {elements : List α} {f : α → Option β} {g : α → β}
    (same : ∀ element, f element = some (g element)) : elements.filterMap f = elements.map g := by
  rw [funext same, List.filterMap_eq_map']

theorem flatMap_eq_map {α β : Type} {elements : List α} {f : α → List β} {g : α → β}
    (same : ∀ element, f element = [g element]) : elements.flatMap f = elements.map g := by
  rw [funext same, List.map_eq_flatMap]

theorem behind_item (field val : Bytes) :
    BatchOp.behind (encodeKeyInternal DataType.item key [] version)
      (.put (encodeKeyInternal DataType.item key field version) val) = some (field, val) := by
  rw [BatchOp.behind, encodeKeyInternal_eq_append DataType.item key field,
    SortedMap.stripPrefix_eq_some.mpr rfl]
  rfl

theorem behind_score (member : Bytes) (score : Double) (val : Bytes) :
    BatchOp.behind (encodeZscorePrefix key version)
      (.put (encodeZscoreKey key member score version) val) =
        some (scoreEntry member score, val) := by
  rw [BatchOp.behind, encodeZscoreKey_eq, encodeKeyInternal_eq_append, encodeZscorePrefix,
    SortedMap.stripPrefix_eq_some.mpr rfl]
  rfl

/-- A key of another family is not behind a prefix. -/
theorem behind_foreign {type first : UInt8} (other : type ≠ first) (field val rest : Bytes) :
    BatchOp.behind (encodeKeyInternal type key field version) (.put (first :: rest) val) = none := by
  rw [BatchOp.behind, encodeKeyInternal, SortedMap.stripPrefix, if_neg other]
  rfl

theorem quickCells_puts (cells : List Bytes) (seq : UInt64) :
    ∀ op ∈ quickCells key version cells seq, ∃ name val, op = .put name val := by
  induction cells generalizing seq with
  | nil => intro op mem; cases mem
  | cons cell cells ih =>
      intro op mem
      rcases List.mem_cons.mp mem with rfl | mem
      · exact ⟨_, _, rfl⟩
      · exact ih _ op mem

theorem behind_quickCells (cells : List Bytes) (seq : UInt64) :
    (quickCells key version cells seq).filterMap
        (BatchOp.behind (encodeKeyInternal DataType.item key [] version)) =
      cells.mapIdx fun i cell => (be64 (seq + 1 + UInt64.ofNat i), cell) := by
  induction cells generalizing seq with
  | nil => rfl
  | cons cell cells ih =>
      rw [quickCells, seqAfter_eq, encodeListKey_eq,
        List.filterMap_cons_some (behind_item key version _ cell), ih, List.mapIdx_cons,
        number_zero]
      simp only [number_succ]

theorem puts_batch (value : RdbValue) : ∀ op ∈ value.batch key version,
    ∃ name val, op = .put name val := by
  have counted : ∀ {type n} {elements : WriteBatch},
      (∀ op ∈ elements, ∃ name val, op = BatchOp.put name val) →
      ∀ op ∈ countedBatch type key version n elements, ∃ name val, op = .put name val := by
    intro type n elements puts op mem
    rw [countedBatch] at mem
    split_ifs at mem
    · exact puts op mem
    · rcases List.mem_append.mp mem with mem | mem
      · exact puts op mem
      · exact ⟨_, _, List.mem_singleton.mp mem⟩
  have mapped : ∀ {α : Type} (elements : List α) (name val : α → Bytes),
      ∀ op ∈ elements.map (fun element => BatchOp.put (name element) (val element)),
        ∃ name val, op = .put name val := by
    intro α elements name val op mem
    obtain ⟨element, _, rfl⟩ := List.mem_map.mp mem
    exact ⟨_, _, rfl⟩
  cases value with
  | string val => intro op mem; exact ⟨_, _, List.mem_singleton.mp mem⟩
  | list single cells =>
      intro op mem
      rcases List.mem_append.mp mem with mem | mem
      · exact quickCells_puts key version _ _ op mem
      · exact ⟨_, _, List.mem_singleton.mp mem⟩
  | set members => exact counted (mapped members _ _)
  | zset scores =>
      refine counted fun op mem => ?_
      obtain ⟨element, _, mem⟩ := List.mem_flatMap.mp mem
      simp only [zputs, List.mem_cons, List.not_mem_nil, or_false] at mem
      rcases mem with rfl | rfl <;> exact ⟨_, _, rfl⟩
  | hash fields => exact counted (mapped fields _ _)

/-- The items behind the prefix of a key and version. -/
theorem items_batch (db : DB) (value : RdbValue) :
    DB.items ((value.batch key version).apply db) key version =
      (db.items key version).putAll value.bindings := by
  rw [DB.items, WriteBatch.under_apply _ (puts_batch key version value), DB.items]
  congr 1
  have noMeta : ∀ val, BatchOp.behind (encodeKeyInternal DataType.item key [] version)
      (.put (encodeMetaKey key) val) = none :=
    fun val => behind_foreign key version (by decide) [] val key
  have counted : ∀ (type : UInt8) (n : Nat) (elements : WriteBatch),
      (countedBatch type key version n elements).filterMap
          (BatchOp.behind (encodeKeyInternal DataType.item key [] version)) =
        elements.filterMap (BatchOp.behind (encodeKeyInternal DataType.item key [] version)) := by
    intro type n elements
    rw [countedBatch]
    split_ifs
    · rfl
    · rw [List.filterMap_append, List.filterMap_cons_none (noMeta _), List.filterMap_nil,
        List.append_nil]
  cases value with
  | string val => exact List.filterMap_cons_none (noMeta _)
  | list single cells =>
      have first : uint64Max + 1 = 0 := by decide
      change List.filterMap _ (quickCells key version (delivered single cells) uint64Max ++ _) = _
      rw [List.filterMap_append, List.filterMap_cons_none (noMeta _), List.filterMap_nil,
        List.append_nil, behind_quickCells, first]
      simp only [UInt64.zero_add]
      rfl
  | set members =>
      refine (counted _ _ _).trans ?_
      rw [List.filterMap_map]
      exact filterMap_eq_map fun member => behind_item key version member []
  | zset scores =>
      refine (counted _ _ _).trans ?_
      rw [List.filterMap_flatMap]
      refine flatMap_eq_map fun element => ?_
      have noScore : BatchOp.behind (encodeKeyInternal DataType.item key [] version)
          (.put (encodeZscoreKey key element.1 element.2 version) []) = none :=
        behind_foreign key version (by decide) [] [] _
      rw [zputs, encodeZsetKey, List.filterMap_cons_some (behind_item key version _ _),
        List.filterMap_cons_none noScore, List.filterMap_nil]
  | hash fields =>
      refine (counted _ _ _).trans ?_
      rw [List.filterMap_map]
      exact (filterMap_eq_map fun element : Bytes × Bytes =>
        behind_item key version element.1 element.2).trans (List.map_id _)

/-- The score index behind the prefix of a key and version. -/
theorem scoreIndex_batch (db : DB) (value : RdbValue) :
    DB.scoreIndex ((value.batch key version).apply db) key version =
      (db.scoreIndex key version).putAll value.entries := by
  rw [DB.scoreIndex, WriteBatch.under_apply _ (puts_batch key version value), DB.scoreIndex]
  congr 1
  have noMeta : ∀ val, BatchOp.behind (encodeZscorePrefix key version)
      (.put (encodeMetaKey key) val) = none :=
    fun val => behind_foreign key version (by decide) [] val key
  have noItem : ∀ name val, BatchOp.behind (encodeZscorePrefix key version)
      (.put (encodeKeyInternal DataType.item key name version) val) = none :=
    fun name val => behind_foreign key version (by decide) [] val _
  have counted : ∀ (type : UInt8) (n : Nat) (elements : WriteBatch),
      (countedBatch type key version n elements).filterMap
          (BatchOp.behind (encodeZscorePrefix key version)) =
        elements.filterMap (BatchOp.behind (encodeZscorePrefix key version)) := by
    intro type n elements
    rw [countedBatch]
    split_ifs
    · rfl
    · rw [List.filterMap_append, List.filterMap_cons_none (noMeta _), List.filterMap_nil,
        List.append_nil]
  cases value with
  | string val => exact List.filterMap_cons_none (noMeta _)
  | list single cells =>
      change List.filterMap _ (quickCells key version (delivered single cells) uint64Max ++ _) = _
      rw [List.filterMap_append, List.filterMap_cons_none (noMeta _), List.filterMap_nil,
        List.append_nil, List.filterMap_eq_nil_iff.mpr]
      · rfl
      · intro op mem
        obtain ⟨name, val, rfl⟩ := quickCells_puts key version _ _ op mem
        obtain ⟨i, _, named⟩ := quickCells_key mem
        obtain rfl : name = _ := named
        exact noItem _ val
  | set members =>
      refine (counted _ _ _).trans ?_
      rw [List.filterMap_map]
      exact List.filterMap_eq_nil_iff.mpr fun member _ => noItem member []
  | zset scores =>
      refine (counted _ _ _).trans ?_
      rw [List.filterMap_flatMap]
      refine flatMap_eq_map fun element => ?_
      rw [zputs, encodeZsetKey, List.filterMap_cons_none (noItem _ _),
        List.filterMap_cons_some (behind_score key version _ _ _), List.filterMap_nil]
  | hash fields =>
      refine (counted _ _ _).trans ?_
      rw [List.filterMap_map]
      exact List.filterMap_eq_nil_iff.mpr fun element _ => noItem element.1 element.2

end Written

end RdbValue

section Agreement

variable {items index : SortedMap Bytes Bytes}

end Agreement

section Restoring

variable {world reopened after : World} {key metaVal : Bytes}

theorem items_after (opened : Reopened world reopened key metaVal) (value : RdbValue)
    (version : UInt16)
    (same : ∀ raw, IsContent raw →
      after.db.get raw = ((value.batch key version).apply reopened.db).get raw) :
    after.db.items key version = (world.db.items key version).putAll value.bindings ∧
      after.db.scoreIndex key version =
        (world.db.scoreIndex key version).putAll value.entries := by
  have items : reopened.db.items key version = world.db.items key version := by
    ext field : 1
    rw [DB.get_items, DB.get_items]
    exact opened.elements _ (Or.inl rfl)
  have index : reopened.db.scoreIndex key version = world.db.scoreIndex key version := by
    ext entry : 1
    rw [DB.scoreIndex, DB.scoreIndex, SortedMap.get_under, SortedMap.get_under]
    exact opened.elements _ (Or.inr rfl)
  constructor
  · rw [← items, ← RdbValue.items_batch]
    ext field : 1
    rw [DB.get_items, DB.get_items]
    exact same _ (Or.inr (Or.inl rfl))
  · rw [← index, ← RdbValue.scoreIndex_batch]
    ext entry : 1
    rw [DB.scoreIndex, DB.scoreIndex, SortedMap.get_under, SortedMap.get_under]
    exact same _ (Or.inr (Or.inr rfl))

end Restoring

section Samples

end Samples

end Vcdb
