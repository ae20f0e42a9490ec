import Vcdb.Storage.Engine
import Mathlib.Data.List.TakeWhile

/-!
# Iterators

An iterator is the list of entries it has still to deliver.  The typed iterators skip the entries
they cannot decode and stop at the first one of another key or version.
-/

namespace Vcdb

/-- Entries from `start` on, up to `stop` when one is given.  `none` stands for the limit `-1`. -/
def iterator (db : DB) (start : Bytes) (stop : Bytes := []) (limit : Option Nat := none) :
    List (Bytes × Bytes) :=
  let entries := (db.seek start).takeWhile fun entry => stop.isEmpty ∨ entry.1 ≤ stop
  match limit with
  | none => entries
  | some n => entries.take n

namespace Iterator

variable {γ : Type} (decode : Bytes → Option γ) (belongs : γ → Bool)

/-- The next record, and the entries behind the position reached. -/
def next : List (Bytes × Bytes) → Option (Bytes × γ × Bytes) × List (Bytes × Bytes)
  | [] => (none, [])
  | (ks, vs) :: rest =>
      match decode ks with
      | none => next rest
      | some item => if belongs item then (some (ks, item, vs), rest) else (none, rest)

/-- Every record up to the first one that does not belong. -/
def collect : List (Bytes × Bytes) → List (γ × Bytes)
  | [] => []
  | (ks, vs) :: rest =>
      match decode ks with
      | none => collect rest
      | some item => if belongs item then (item, vs) :: collect rest else []

variable {decode belongs}

theorem collect_append {block rest : List (Bytes × Bytes)}
    (own : ∀ entry ∈ block, ∃ item, decode entry.1 = some item ∧ belongs item)
    (foreign : ∀ entry ∈ rest, ∀ item, decode entry.1 = some item → belongs item = false) :
    collect decode belongs (block ++ rest) =
      block.filterMap fun entry => (decode entry.1).map fun item => (item, entry.2) := by
  induction block with
  | nil =>
      induction rest with
      | nil => rfl
      | cons head rest ih =>
          obtain ⟨ks, vs⟩ := head
          have tail := ih fun entry mem => foreign entry (List.mem_cons_of_mem _ mem)
          rw [List.nil_append] at tail ⊢
          unfold collect
          cases decoded : decode ks with
          | none => exact tail
          | some item => simp [foreign _ List.mem_cons_self item decoded]
  | cons head block ih =>
      obtain ⟨ks, vs⟩ := head
      obtain ⟨item, decoded, mine⟩ := own _ List.mem_cons_self
      simp only at decoded
      rw [List.cons_append, collect, decoded]
      simp [mine, decoded, ih fun entry mem => own entry (List.mem_cons_of_mem _ mem)]

/-- The records of a scan are among the entries, each under the key it decodes from. -/
theorem collect_sublist {encode : γ → Bytes}
    (spelled : ∀ {ks item}, decode ks = some item → ks = encode item)
    (entries : List (Bytes × Bytes)) :
    ((collect decode belongs entries).map fun record => encode record.1).Sublist
      (entries.map Prod.fst) := by
  induction entries with
  | nil => exact List.nil_sublist _
  | cons entry entries ih =>
      obtain ⟨ks, vs⟩ := entry
      unfold collect
      cases decoded : decode ks with
      | none => exact ih.cons _
      | some item =>
          by_cases mine : belongs item
          · simp only [mine, if_true, List.map_cons, spelled decoded]
            exact ih.cons_cons _
          · simp [mine]

theorem belongs_of_mem_collect {entries : List (Bytes × Bytes)} {record : γ × Bytes}
    (mem : record ∈ collect decode belongs entries) : belongs record.1 := by
  induction entries with
  | nil => cases mem
  | cons entry entries ih =>
      obtain ⟨ks, vs⟩ := entry
      unfold collect at mem
      cases decoded : decode ks with
      | none =>
          rw [decoded] at mem
          exact ih mem
      | some item =>
          by_cases mine : belongs item
          · simp only [decoded, mine, if_true] at mem
            rcases List.mem_cons.mp mem with rfl | later
            · exact mine
            · exact ih later
          · simp [decoded, mine] at mem

end Iterator

/-- A scan runs through some of the stored entries. -/
theorem iterator_sublist (db : DB) (start stop : Bytes) (limit : Option Nat) :
    (iterator db start stop limit).Sublist db.entries := by
  have seek : (db.seek start).Sublist db.entries := List.dropWhile_sublist _
  have bounded := (List.takeWhile_sublist fun entry : Bytes × Bytes =>
    decide (stop.isEmpty ∨ entry.1 ≤ stop)).trans seek
  cases limit with
  | none => exact bounded
  | some n => exact (List.take_sublist n _).trans bounded

/-- The entries of a hash. -/
def hiterator (db : DB) (name : Bytes) (version : UInt16) : List (Bytes × Bytes) :=
  (Iterator.collect decodeItemKey (fun hk => hk.key = name ∧ hk.version = version)
      (iterator db (encodeHashKey name [] version))).map
    fun record => (record.1.field, record.2)

/-- The members of a set. -/
def siterator (db : DB) (name : Bytes) (version : UInt16) : List Bytes :=
  (Iterator.collect decodeItemKey (fun sk => sk.key = name ∧ sk.version = version)
      (iterator db (encodeSetKey name [] version))).map
    fun record => record.1.field

/-- The items stored under a key and version, by field. -/
def DB.items (db : DB) (key : Bytes) (version : UInt16) : SortedMap Bytes Bytes :=
  db.under (encodeKeyInternal DataType.item key [] version)

@[simp]
theorem DB.get_items (db : DB) (key field : Bytes) (version : UInt16) :
    (db.items key version).get field =
      db.get (encodeKeyInternal DataType.item key field version) := by
  rw [items, SortedMap.get_under, ← encodeKeyInternal_eq_append]

theorem iterator_eq_seek (db : DB) (start : Bytes) : iterator db start = db.seek start := by
  simp only [iterator, List.isEmpty_nil, true_or, decide_true]
  exact List.takeWhile_eq_self_iff.mpr fun _ _ => rfl

/-- The records of a scan that begins among the items of a key and version. -/
theorem collect_items (key : UserKey) (version : UInt16) (block : List (Bytes × Bytes))
    {rest : List (Bytes × Bytes)}
    (outside : ∀ entry ∈ rest, ¬encodeKeyInternal DataType.item key.1 [] version <+: entry.1) :
    Iterator.collect decodeItemKey (fun item => item.key = key.1 ∧ item.version = version)
        (block.map (fun entry =>
          (encodeKeyInternal DataType.item key.1 [] version ++ entry.1, entry.2)) ++ rest) =
      block.map fun entry => (⟨key.1, version, entry.1⟩, entry.2) := by
  rw [Iterator.collect_append]
  · rw [List.filterMap_map, ← List.filterMap_eq_map]
    refine List.filterMap_congr fun entry _ => ?_
    simp only [Function.comp_apply, ← encodeKeyInternal_eq_append, decodeItemKey_encode,
      Option.map_some]
  · simp only [List.mem_map]
    rintro _ ⟨entry, _, rfl⟩
    refine ⟨⟨key.1, version, entry.1⟩, ?_, by simp⟩
    rw [← encodeKeyInternal_eq_append, decodeItemKey_encode]
  · intro entry mem item decoded
    rw [decodeItemKey, decodeItemKeyInternal_eq_some] at decoded
    by_contra belongs
    simp only [Bool.not_eq_false, decide_eq_true_eq] at belongs
    apply outside entry mem
    rw [decoded.2, belongs.1, belongs.2, encodeKeyInternal_eq_append _ _ item.field]
    exact List.prefix_append _ _

/-- A scan that starts at the empty field delivers exactly the items of the key and version. -/
theorem hiterator_eq_items (db : DB) (key : UserKey) (version : UInt16) :
    hiterator db key.1 version = (db.items key.1 version).entries := by
  obtain ⟨rest, block, outside⟩ :=
    db.seek_eq_block (encodeKeyInternal DataType.item key.1 [] version)
  rw [hiterator, iterator_eq_seek, encodeHashKey, block, collect_items key version _ outside,
    List.map_map]
  exact List.map_id _

theorem siterator_eq_items (db : DB) (key : UserKey) (version : UInt16) :
    siterator db key.1 version = (db.items key.1 version).keys := by
  have hashes := hiterator_eq_items db key version
  rw [SortedMap.keys, ← hashes, hiterator, List.map_map]
  rfl

end Vcdb
