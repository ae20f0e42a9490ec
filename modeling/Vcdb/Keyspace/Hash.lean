import Vcdb.Keyspace.Collection
import Vcdb.Proc.Hash

/-!
# Hash commands refine a finite map

The meaning of the hash commands on a finite map, and the proof that every command computes it
from the stored records.
-/

namespace Vcdb

/-- The integer a text spells in decimal, when it fits 64 bits. -/
noncomputable def textInteger (text : Bytes) : Option Int :=
  (Function.partialInv str text).map Int64.toInt

theorem textInteger_eq (text : Bytes) : textInteger text = (string2ll text).map Int64.toInt := by
  have injective : Function.Injective str := fun m n same =>
    Option.some_inj.mp ((string2ll_str m).symm.trans (same ▸ string2ll_str n))
  have inverse : Function.partialInv str text = string2ll text := by
    ext n
    rw [injective.isPartialInv, string2ll_eq_some, eq_comm]
  rw [textInteger, inverse]

namespace HashCommand

/-- Reply to a request with too few arguments. -/
def argumentError : HashCommand → Option Reply
  | hmset _ [] => some (.errorInfo "ERR wrong number of arguments for 'hmset' command")
  | hdel _ [] | hmget _ [] => some .wrongNumberOfArguments
  | _ => none

/-- Reply and new map of a command on a finite map from fields to values. -/
noncomputable def denote (fields : SortedMap Bytes Bytes) :
    HashCommand → Reply × SortedMap Bytes Bytes
  | hset _ field val =>
      (.int (if (fields.get field).isSome then 0 else 1), fields.put field val)
  | hsetnx _ field val =>
      if (fields.get field).isSome then (.int 0, fields) else (.int 1, fields.put field val)
  | hmset _ kvs => (.ok, fields.putAll kvs)
  | hdel _ removed =>
      (.int (fields.size - (fields.eraseAll removed).size), fields.eraseAll removed)
  | hincrby _ field by' =>
      match fields.get field with
      | none => (.int by'.toInt, fields.put field (str by'))
      | some old =>
          match textInteger old with
          | none => (.error invalidInt, fields)
          | some n =>
              if -2 ^ 63 ≤ n + by'.toInt ∧ n + by'.toInt < 2 ^ 63 then
                (.int (n + by'.toInt), fields.put field (str (Int64.ofInt (n + by'.toInt))))
              else (.error intOverflow, fields)
  | hget _ field =>
      (match fields.get field with
        | some val => .bulk val
        | none => .nil, fields)
  | hmget _ asked => (.list (asked.map fields.get), fields)
  | hgetall _ => (.strings (fields.entries.flatMap fun entry => [entry.1, entry.2]), fields)
  | hkeys _ => (.strings fields.keys, fields)
  | hvals _ => (.strings fields.values, fields)
  | hexists _ field => (.int (if (fields.get field).isSome then 1 else 0), fields)
  | hlen _ => (.int fields.size, fields)

end HashCommand

/-- A hash exists exactly when it has a field. -/
def Value.ofFields (fields : SortedMap Bytes Bytes) : Option Value :=
  if fields.size = 0 then none else some (.hash fields)

/-- Reply and new value of a hash command on what its key holds. -/
noncomputable def HashCommand.respond (value : Option Value) (command : HashCommand) :
    Reply × Option Value :=
  match command.argumentError with
  | some reply => (reply, value)
  | none =>
      match value with
      | none => ((command.denote ∅).1, Value.ofFields (command.denote ∅).2)
      | some (.hash fields) => ((command.denote fields).1, Value.ofFields (command.denote fields).2)
      | some _ => (.error wrongTypeErr, value)

/-- What a hash command finds: an absent hash counts as the empty map at the version it would be
created with. -/
structure HashView (contents : Contents) (key : UserKey) (state : Option (UInt16 × Value))
    (fields : SortedMap Bytes Bytes) (version : UInt16) : Prop where
  valid : KeyValid contents key state
  value : state.map Prod.snd = Value.ofFields fields
  length : LengthOf contents key state DataType.hsize version fields.size
  items : ∀ field, contents (.item key version field) = fields.get field
  noScores : ∀ score field, contents (.zscore key version score field) = none
  small : fields.size < 2 ^ 64

section View

variable {contents : Contents} {key : UserKey}

theorem HashView.ofIdle (valid : KeyValid contents key none) (fresh : contents.Fresh key) :
    HashView contents key none ∅ (contents.createVersion key) := by
  have clean := valid.clean_of_fresh fresh
  exact
    { valid, value := rfl, length := ⟨rfl, rfl, fresh⟩, items := clean.1, noScores := clean.2,
      small := by simp [SortedMap.size] }

theorem HashView.ofLive {version : UInt16} {fields : SortedMap Bytes Bytes}
    (valid : KeyValid contents key (some (version, .hash fields))) :
    HashView contents key (some (version, .hash fields)) fields version := by
  obtain ⟨positive, small, metadata, items, noScores⟩ := valid.represented
  exact
    { valid, value := by simp [Value.ofFields, positive.ne'], length := ⟨rfl, positive, metadata⟩,
      items, noScores, small }

end View

section Commands

variable {world : World} {key : UserKey} {state : Option (UInt16 × Value)}
  {fields : SortedMap Bytes Bytes} {version : UInt16}

theorem HashView.refines_self (view : HashView world.db.contents key state fields version)
    {command : Command Reply} {reply : Reply}
    (run : command.eval atomically world = (reply, world)) :
    Refines command world key (reply, Value.ofFields fields) :=
  view.value ▸ Refines.of_eval view.valid run

theorem HashView.eval_getHashMetaVal (view : HashView world.db.contents key state fields version) :
    ∃ hv : MetaVal, (getHashMetaVal (encodeMetaKey key.1)).eval atomically world =
        ((if fields.size = 0 then 0 else 1, hv), world) ∧
      hv.version = version ∧ hv.length = UInt64.ofNat fields.size :=
  view.length.eval_getMetaVal DataType.hsize (Or.inl rfl) view.valid

theorem eval_getHashItemValInternal (world : World) (key : UserKey) (version : UInt16)
    (field : Bytes) :
    (getHashItemValInternal (encodeHashKey key.1 field version)).eval atomically world =
      (match world.db.contents (.item key version field) with
        | none => (0, [])
        | some val => (1, val), world) := by
  rw [getHashItemValInternal, Program.eval_bind, encodeHashKey_eq, eval_dbGet]
  cases world.db.contents (.item key version field) <;> rfl

/-- Commit item updates that turn the fields into `fields'`. -/
theorem HashView.eval_commitHash (view : HashView world.db.contents key state fields version)
    (updates : List Update) (fields' : SortedMap Bytes Bytes) (incr : Int) {hv : MetaVal}
    (versionEq : hv.version = version) (lengthEq : hv.length = UInt64.ofNat fields.size)
    (elements : ∀ u ∈ updates, ∃ field, u.record = .item key version field)
    (items : ∀ field, world.db.contents.applyAll updates (.item key version field) =
      fields'.get field)
    (incrEq : incr = fields'.size - fields.size) (small : fields'.size < 2 ^ 64)
    (nonempty : fields.size = 0 → 0 < fields'.size) :
    ∃ world' state', (commitHash key.1 (updates.map Update.encode) (encodeMetaKey key.1) hv
          incr).eval atomically world = ((if fields'.size = 0 then 0 else 1), world') ∧
      Confined key world.db world'.db ∧
      KeyValid world'.db.contents key state' ∧ state'.map Prod.snd = Value.ofFields fields' := by
  have isElement : ∀ u ∈ updates, u.IsElement key version := fun u mem => Or.inl (elements u mem)
  subst incrEq
  refine view.valid.commit isElement versionEq lengthEq view.small small view.length nonempty ?_
  intro positive other sameItems sameScores metadata
  refine ⟨by omega, small, metadata, ?_, ?_⟩
  · intro field
    rw [sameItems, items]
  · intro score field
    rw [sameScores, Contents.applyAll_of_notMem, view.noScores]
    intro u mem same
    obtain ⟨field', isItem⟩ := elements u mem
    rw [isItem] at same
    exact absurd same (by simp)

/-- The update a checked write of a field makes: none when the value is already there. -/
def putUpdates (contents : Contents) (key : UserKey) (version : UInt16) (field val : Bytes) :
    List Update :=
  if contents (.item key version field) = some val then []
  else [⟨.item key version field, some val⟩]

theorem eval_hsetOne_checked (world : World) (key : UserKey) (batch : List Update)
    (field val : Bytes) {hv : MetaVal}
    (versionEq : hv.version = version) :
    (hsetOne (batch.map Update.encode) hv true key.1 field val).eval atomically world =
      ((if (world.db.contents (.item key version field)).isSome then 0 else 1,
        (batch ++ putUpdates world.db.contents key version field val).map Update.encode),
          world) := by
  have put : batch.map Update.encode ++ [.put (encodeHashKey key.1 field version) val] =
      (batch ++ [(⟨.item key version field, some val⟩ : Update)]).map Update.encode := by
    simp [encodeHashKey_eq, put_eq]
  subst versionEq
  simp only [hsetOne, if_true, Program.eval_bind, eval_getHashItemValInternal, putUpdates]
  cases world.db.contents (.item key hv.version field) with
  | none => simp [put]
  | some old => by_cases same : old = val <;> simp [put, same]

theorem eval_hsetOne_unchecked (world : World) (key : UserKey) (batch : List Update)
    (field val : Bytes) {hv : MetaVal}
    (versionEq : hv.version = version) :
    (hsetOne (batch.map Update.encode) hv false key.1 field val).eval atomically world =
      ((1, (batch ++ [(⟨.item key version field, some val⟩ : Update)]).map Update.encode),
        world) := by
  subst versionEq
  simp [hsetOne, encodeHashKey_eq, put_eq]

theorem items_put (view : HashView world.db.contents key state fields version)
    {updates : List Update}
    {field val : Bytes}
    (puts : updates = putUpdates world.db.contents key version field val ∨
      updates = [⟨.item key version field, some val⟩]) (other : Bytes) :
    world.db.contents.applyAll updates (.item key version other) =
      (fields.put field val).get other := by
  rw [SortedMap.get_put, ← view.items]
  rcases puts with rfl | rfl
  · unfold putUpdates
    split_ifs with stored same same
    · rw [same]
      exact stored
    · rfl
    · simp [same]
    · simp [same]
  · by_cases same : other = field <;> simp [same]

theorem elements_put {updates : List Update} {field val : Bytes}
    (puts : updates = putUpdates world.db.contents key version field val ∨
      updates = [⟨.item key version field, some val⟩]) :
    ∀ u ∈ updates, ∃ field, u.record = .item key version field := by
  intro u mem
  rcases puts with rfl | rfl
  · unfold putUpdates at mem
    split_ifs at mem
    · simp at mem
    · exact ⟨field, by rw [List.mem_singleton.mp mem]⟩
  · exact ⟨field, by rw [List.mem_singleton.mp mem]⟩

theorem size_put_pos (fields : SortedMap Bytes Bytes) (field val : Bytes) : 0 < (fields.put field val).size := by
  rw [SortedMap.size_put]
  split_ifs with found
  · refine Nat.pos_of_ne_zero fun zero => ?_
    rw [SortedMap.size_eq_zero.mp zero] at found
    simp at found
  · omega

theorem existing_nonneg (fields : SortedMap Bytes Bytes) :
    ¬(if fields.size = 0 then (0 : Int) else 1) < 0 := by
  split_ifs <;> decide

theorem existing_eq_one (fields : SortedMap Bytes Bytes) :
    (if fields.size = 0 then (0 : Int) else 1) = 1 ↔ fields.size ≠ 0 := by
  split_ifs with zero <;> simp [zero]

theorem get_of_size_eq_zero (zero : fields.size = 0) (field : Bytes) : fields.get field = none := by
  rw [SortedMap.size_eq_zero.mp zero]
  rfl

theorem HashView.hset (view : HashView world.db.contents key state fields version)
    (field val : Bytes) (small : (fields.put field val).size < 2 ^ 64) :
    Refines (procHset key.1 field val) world key
      (.int (if (fields.get field).isSome then 0 else 1), Value.ofFields (fields.put field val)) := by
  obtain ⟨hv, readMeta, versionEq, lengthEq⟩ := view.eval_getHashMetaVal
  have positive := size_put_pos fields field val
  have puts := Or.inl (b := putUpdates world.db.contents key version field val =
    [⟨.item key version field, some val⟩])
    (rfl : putUpdates world.db.contents key version field val = _)
  obtain ⟨world', state', run, confined, valid, value⟩ := view.eval_commitHash _ _
    (if (fields.get field).isSome then 0 else 1) versionEq lengthEq
    (elements_put puts) (items_put view puts) (by
      rw [SortedMap.size_put]
      split_ifs <;> omega) small (fun _ => positive)
  refine ⟨world', state', ?_, confined, valid, value⟩
  have write := eval_hsetOne_checked world key [] field val versionEq
  rw [List.map_nil, List.nil_append, view.items] at write
  rw [if_neg positive.ne'] at run
  simp only [procHset, Vcdb.hset, hsetCommon, eval_recordKeyLock, Program.eval_bind, readMeta,
    Program.eval_ite, if_neg (existing_nonneg fields), Bool.false_eq_true, false_and, if_false,
      Program.pure_eq_done,
    Program.eval_done, ne_eq, not_true_eq_false, Bool.not_false, write, run]
  simp

theorem HashView.hsetnx (view : HashView world.db.contents key state fields version)
    (field val : Bytes) (small : (fields.put field val).size < 2 ^ 64) :
    Refines (procHsetnx key.1 field val) world key
      (if (fields.get field).isSome then (.int 0, Value.ofFields fields)
        else (.int 1, Value.ofFields (fields.put field val))) := by
  obtain ⟨hv, readMeta, versionEq, lengthEq⟩ := view.eval_getHashMetaVal
  have item := eval_getHashItemValInternal world key version field
  rw [view.items] at item
  cases found : fields.get field with
  | some old =>
      -- A stored field can only be found in a live hash.
      have live : fields.size ≠ 0 := fun zero => by
        rw [get_of_size_eq_zero zero] at found
        simp at found
      rw [found] at item
      apply view.refines_self
      simp only [procHsetnx, Vcdb.hsetnx, hsetCommon, eval_recordKeyLock, Program.eval_bind,
        readMeta, Program.eval_ite, if_neg live, versionEq, item, true_and, if_true,
        Program.pure_eq_done, Program.eval_done]
      rfl
  | none =>
      have positive := size_put_pos fields field val
      have puts : [(⟨.item key version field, some val⟩ : Update)] =
          putUpdates world.db.contents key version field val ∨
          [(⟨.item key version field, some val⟩ : Update)] = [⟨.item key version field, some val⟩] :=
        Or.inr rfl
      obtain ⟨world', state', run, confined, valid, value⟩ := view.eval_commitHash _ _ 1
        versionEq lengthEq (elements_put puts) (items_put view puts) (by
          rw [SortedMap.size_put, found]
          simp) small (fun _ => positive)
      refine ⟨world', state', ?_, confined, valid, value⟩
      have write := eval_hsetOne_unchecked world key [] field val versionEq
      rw [List.map_nil, List.nil_append] at write
      rw [if_neg positive.ne'] at run
      rw [found] at item
      by_cases live : fields.size = 0
      · simp only [procHsetnx, Vcdb.hsetnx, hsetCommon, eval_recordKeyLock, Program.eval_bind,
          readMeta, Program.eval_ite, if_pos live, true_and, Program.pure_eq_done,
          Program.eval_done, Bool.not_true, lt_irrefl, zero_ne_one, if_false, ne_eq,
          not_true_eq_false, write, run]
        rfl
      · simp only [procHsetnx, Vcdb.hsetnx, hsetCommon, eval_recordKeyLock, Program.eval_bind,
          readMeta, Program.eval_ite, if_neg live, if_true, versionEq, item, true_and,
          Program.pure_eq_done, Program.eval_done, write, run, Bool.not_true]
        simp

/-- Number of bindings whose field is not there yet. -/
def newFields (fields : SortedMap Bytes Bytes) (kvs : List (Bytes × Bytes)) : Nat :=
  kvs.countP fun kv => (fields.get kv.1).isNone

theorem eval_hmsetLoop (view : HashView world.db.contents key state fields version) {hv : MetaVal}
    (versionEq : hv.version = version) (kvs : List (Bytes × Bytes)) (batch : List Update)
    (sum : Int) :
    (hmsetLoop hv true key.1 kvs (batch.map Update.encode) sum).eval atomically world =
      (.ok (sum + newFields fields kvs, (batch ++ kvs.flatMap fun kv =>
        putUpdates world.db.contents key version kv.1 kv.2).map Update.encode), world) := by
  induction kvs generalizing batch sum with
  | nil => simp [hmsetLoop, newFields]
  | cons kv kvs ih =>
      have write := eval_hsetOne_checked world key batch kv.1 kv.2 versionEq
      rw [view.items] at write
      have nonneg : ¬(if (fields.get kv.1).isSome then (0 : Int) else 1) < 0 := by
        split_ifs <;> decide
      rw [hmsetLoop, Program.eval_bind, write]
      simp only [if_neg nonneg]
      rw [ih, List.flatMap_cons, List.append_assoc, newFields, newFields, List.countP_cons]
      cases fields.get kv.1 with
      | none =>
          simp
          omega
      | some old => simp

/-- Writing several fields, each at most once, puts them all. -/
theorem items_putAll (view : HashView world.db.contents key state fields version)
    {kvs : List (Bytes × Bytes)} (sorted : kvs.Pairwise fun x y => x.1 < y.1) (other : Bytes) :
    world.db.contents.applyAll
        (kvs.flatMap fun kv => putUpdates world.db.contents key version kv.1 kv.2)
        (.item key version other) = (fields.putAll kvs).get other := by
  suffices general : ∀ (contents : Contents) (current : SortedMap Bytes Bytes),
      (∀ field, contents (.item key version field) = current.get field) →
      (∀ kv ∈ kvs, current.get kv.1 = fields.get kv.1) →
      contents.applyAll
          (kvs.flatMap fun kv => putUpdates world.db.contents key version kv.1 kv.2)
          (.item key version other) = (current.putAll kvs).get other from
    general _ _ view.items fun _ _ => rfl
  induction kvs with
  | nil => exact fun contents current items _ => items other
  | cons kv kvs ih =>
      obtain ⟨above, tailSorted⟩ := List.pairwise_cons.mp sorted
      intro contents current items unchanged
      rw [List.flatMap_cons, Contents.applyAll_append]
      apply ih tailSorted _ (current.put kv.1 kv.2)
      · intro field
        rw [SortedMap.get_put, ← items]
        unfold putUpdates
        split_ifs with stored same same
        · rw [same, Contents.applyAll_nil, items, unchanged kv List.mem_cons_self, ← view.items]
          exact stored
        · rfl
        · simp [same]
        · simp [same]
      · intro later mem
        have ne : later.1 ≠ kv.1 := (above later mem).ne'
        rw [SortedMap.get_put, if_neg ne]
        exact unchanged later (List.mem_cons_of_mem _ mem)

theorem size_putAll {kvs : List (Bytes × Bytes)} (sorted : kvs.Pairwise fun x y => x.1 < y.1) :
    (fields.putAll kvs).size = fields.size + newFields fields kvs :=
  SortedMap.size_putAll (List.pairwise_map.mpr (sorted.imp fun lt => lt.ne)) fields

theorem size_le_putAll (fields : SortedMap Bytes Bytes) (kvs : List (Bytes × Bytes)) :
    fields.size ≤ (fields.putAll kvs).size := by
  induction kvs generalizing fields with
  | nil => exact le_refl _
  | cons kv kvs ih =>
      refine le_trans ?_ (ih (fields.put kv.1 kv.2))
      rw [SortedMap.size_put]
      split_ifs <;> omega

theorem size_putAll_pos (fields : SortedMap Bytes Bytes) {kvs : List (Bytes × Bytes)}
    (nonempty : kvs ≠ []) :
    0 < (fields.putAll kvs).size := by
  cases kvs with
  | nil => exact absurd rfl nonempty
  | cons kv kvs =>
      exact (size_put_pos fields kv.1 kv.2).trans_le
        (size_le_putAll (fields.put kv.1 kv.2) kvs)

theorem HashView.hmset (view : HashView world.db.contents key state fields version)
    {kvs : List (Bytes × Bytes)} (nonempty : kvs ≠ [])
    (small : (fields.putAll kvs).size < 2 ^ 64) :
    Refines (procHmset key.1 kvs) world key (.ok, Value.ofFields (fields.putAll kvs)) := by
  obtain ⟨hv, readMeta, versionEq, lengthEq⟩ := view.eval_getHashMetaVal
  have positive := size_putAll_pos fields nonempty
  have sorted := (fieldMap kvs).sorted
  have sameMap : fields.putAll (fieldMap kvs).entries = fields.putAll kvs :=
    fields.putAll_entries_putAll kvs
  have loop := eval_hmsetLoop view versionEq (fieldMap kvs).entries [] 0
  obtain ⟨world', state', run, confined, valid, value⟩ := view.eval_commitHash
    ((fieldMap kvs).entries.flatMap fun kv =>
      putUpdates world.db.contents key version kv.1 kv.2)
    (fields.putAll kvs) (0 + newFields fields (fieldMap kvs).entries)
    versionEq lengthEq (by
      intro u mem
      obtain ⟨kv, _, mem⟩ := List.mem_flatMap.mp mem
      exact elements_put (Or.inl rfl) u mem) (by
      intro field
      rw [items_putAll view sorted, sameMap]) (by
      rw [← sameMap, size_putAll sorted]
      omega) small (fun _ => positive)
  refine ⟨world', state', ?_, confined, valid, value⟩
  rw [List.map_nil, List.nil_append] at loop
  rw [if_neg positive.ne'] at run
  simp only [procHmset, if_neg nonempty, Vcdb.hmset, hmsetNoLock, eval_recordKeyLock,
    Program.eval_bind, readMeta, Program.eval_ite, if_neg (existing_nonneg fields), loop, run]
  rfl

theorem eraseAll_byteSet (removed : List Bytes) :
    fields.eraseAll (byteSet removed).keys = fields.eraseAll removed :=
  SortedMap.eraseAll_congr fun _ _ => mem_keys_byteSet

/-- The updates that delete the stored ones among some fields. -/
def deleteUpdates (key : UserKey) (version : UInt16) (fields : SortedMap Bytes Bytes)
    (removed : List Bytes) : List Update :=
  ((removed.filter fun field => (fields.get field).isSome).map (.item key version)).map fun record =>
    ⟨record, none⟩

theorem eval_hdelLoop (view : HashView world.db.contents key state fields version) {hv : MetaVal}
    (versionEq : hv.version = version) (removed : List Bytes) (batch : List Update)
    (deleted : Int) :
    (hdelLoop hv key.1 removed (batch.map Update.encode) deleted).eval atomically world =
      (.ok (deleted + removed.countP (fun field => (fields.get field).isSome),
        (batch ++ deleteUpdates key version fields removed).map Update.encode), world) := by
  induction removed generalizing batch deleted with
  | nil => simp [hdelLoop, deleteUpdates]
  | cons field removed ih =>
      have item := eval_getHashItemValInternal world key version
        field
      rw [view.items] at item
      have delete : batch.map Update.encode ++ [.delete (encodeHashKey key.1 field version)] =
          (batch ++ [(⟨.item key version field, none⟩ : Update)]).map Update.encode := by
        simp [encodeHashKey_eq, delete_eq]
      rw [hdelLoop, Program.eval_bind, versionEq, item]
      cases found : fields.get field with
      | none =>
          simp only [lt_irrefl, zero_ne_one, if_false]
          rw [ih, List.countP_cons]
          simp [deleteUpdates, found]
      | some val =>
          have nonneg : ¬((1 : Int) < 0) := by decide
          simp only [if_neg nonneg, if_true, delete]
          rw [ih, List.countP_cons]
          simp [deleteUpdates, found]
          omega

theorem items_eraseAll (view : HashView world.db.contents key state fields version)
    (removed : List Bytes) (other : Bytes) :
    world.db.contents.applyAll (deleteUpdates key version fields removed)
        (.item key version other) = (fields.eraseAll removed).get other := by
  rw [SortedMap.get_eraseAll, deleteUpdates, Contents.applyAll_deletes, view.items]
  have named : (RecordKey.item key version other ∈
      (removed.filter fun field => (fields.get field).isSome).map (.item key version)) ↔
      other ∈ removed ∧ (fields.get other).isSome := by
    simp
  rw [if_congr named rfl rfl]
  by_cases mem : other ∈ removed
  · cases found : fields.get other <;> simp [mem]
  · simp [mem]

theorem HashView.hdel (view : HashView world.db.contents key state fields version)
    {removed : List Bytes} (nonempty : removed ≠ []) :
    Refines (procHdel key.1 removed) world key
      (.int (fields.size - (fields.eraseAll removed).size),
        Value.ofFields (fields.eraseAll removed)) := by
  obtain ⟨hv, readMeta, versionEq, lengthEq⟩ := view.eval_getHashMetaVal
  have counted := SortedMap.size_eraseAll (byteSet removed).keys_nodup fields
  rw [eraseAll_byteSet] at counted
  have small := view.small
  by_cases absent : fields.size = 0
  · have unchanged : fields.eraseAll removed = fields := by
      have stillEmpty : (fields.eraseAll removed).size = 0 := by omega
      rw [SortedMap.size_eq_zero.mp stillEmpty, SortedMap.size_eq_zero.mp absent]
    rw [unchanged, sub_self]
    apply view.refines_self
    simp only [procHdel, if_neg nonempty, Vcdb.hdel, eval_recordKeyLock, Program.eval_bind,
      readMeta,
      if_pos absent, ne_eq, zero_ne_one, not_false_eq_true, if_true, lt_irrefl,
      if_false, Program.pure_eq_done, Program.eval_done]
  · have loop := eval_hdelLoop view versionEq (byteSet removed).keys [] 0
    rw [List.map_nil, List.nil_append, zero_add] at loop
    obtain ⟨world', state', run, confined, valid, value⟩ := view.eval_commitHash
      (deleteUpdates key version fields (byteSet removed).keys) (fields.eraseAll removed)
      (-(((byteSet removed).keys.countP fun field => (fields.get field).isSome) : Int))
      versionEq lengthEq (by
        intro u mem
        simp only [deleteUpdates, List.map_map, List.mem_map, Function.comp_apply] at mem
        obtain ⟨field, _, rfl⟩ := mem
        exact ⟨field, rfl⟩) (by
        intro field
        rw [items_eraseAll view, eraseAll_byteSet]) (by omega) (by omega) (by omega)
    refine ⟨world', state', ?_, confined, valid, value⟩
    have nonneg : ¬(if (fields.eraseAll removed).size = 0 then (0 : Int) else 1) < 0 := by
      split_ifs <;> decide
    simp only [procHdel, if_neg nonempty, Vcdb.hdel, eval_recordKeyLock, Program.eval_bind,
      readMeta,
      if_neg absent, ne_eq, not_true_eq_false, if_false, loop, run,
      Program.pure_eq_done, Program.eval_done, if_neg nonneg]
    congr 2
    omega

/-- The overflow test of an increment, on the mathematical sum. -/
theorem incrInteger_eq (by' : Int64) (old : Bytes) :
    incrInteger by' old 1 =
      match textInteger old with
      | none => .error invalidInt
      | some n =>
          if -2 ^ 63 ≤ n + by'.toInt ∧ n + by'.toInt < 2 ^ 63 then
            .ok (Int64.ofInt (n + by'.toInt))
          else .error intOverflow := by
  rw [incrInteger, if_neg (by decide), textInteger_eq]
  cases string2ll old with
  | none => rfl
  | some oldvalue =>
      have lower := oldvalue.le_toInt
      have upper := oldvalue.toInt_lt
      have lower' := by'.le_toInt
      have upper' := by'.toInt_lt
      have sub : ∀ bound : Int64, (bound - oldvalue).toInt = (bound.toInt - oldvalue.toInt).bmod
        (2 ^ 64) :=
        fun bound => Int64.toInt_sub bound oldvalue
      have minimum : llongMin.toInt = -2 ^ 63 := by decide
      have maximum : llongMax.toInt = 2 ^ 63 - 1 := by decide
      have zero : (0 : Int64).toInt = 0 := rfl
      have overflow : (by' < 0 ∧ oldvalue < 0 ∧ by' < llongMin - oldvalue ∨
          by' > 0 ∧ oldvalue > 0 ∧ by' > llongMax - oldvalue) ↔
          ¬(-2 ^ 63 ≤ oldvalue.toInt + by'.toInt ∧ oldvalue.toInt + by'.toInt < 2 ^ 63) := by
        simp only [gt_iff_lt, Int64.lt_iff_toInt_lt, sub, minimum, maximum, zero, Int.bmod_def]
        omega
      simp only [overflow, Option.map_some]
      split_ifs with fits
      · rw [Int64.ofInt_add, Int64.ofInt_toInt, Int64.ofInt_toInt]
      · rfl

theorem HashView.hincrby (view : HashView world.db.contents key state fields version)
    (field : Bytes) (by' : Int64)
    (small : ((HashCommand.hincrby key.1 field by').denote fields).2.size < 2 ^ 64) :
    Refines (procHincrby key.1 field by') world key
      (((HashCommand.hincrby key.1 field by').denote fields).1,
        Value.ofFields ((HashCommand.hincrby key.1 field by').denote fields).2) := by
  obtain ⟨hv, readMeta, versionEq, lengthEq⟩ := view.eval_getHashMetaVal
  have item := eval_getHashItemValInternal world key version field
  rw [view.items] at item
  -- What is written once the new number is known.
  have stored : ∀ new : Int64, (fields.put field (str new)).size < 2 ^ 64 →
      ∃ world' state', (commitHash key.1 ([(⟨.item key version field, some (str new)⟩ :
          Update)].map Update.encode) (encodeMetaKey key.1) hv
            (if (fields.get field).isSome then 0 else 1)).eval atomically world = (1, world') ∧
        Confined key world.db world'.db ∧
        KeyValid world'.db.contents key state' ∧
        state'.map Prod.snd = Value.ofFields (fields.put field (str new)) := by
    intro new small
    have positive := size_put_pos fields field (str new)
    have puts : [(⟨.item key version field, some (str new)⟩ : Update)] =
        putUpdates world.db.contents key version field (str new) ∨
        [(⟨.item key version field, some (str new)⟩ : Update)] =
          [⟨.item key version field, some (str new)⟩] := Or.inr rfl
    have commit := view.eval_commitHash _ _ (if (fields.get field).isSome then 0 else 1)
      versionEq lengthEq (elements_put puts) (items_put view puts) (by
        rw [SortedMap.size_put]
        split_ifs <;> omega) small (fun _ => positive)
    rwa [if_neg positive.ne'] at commit
  have write := fun new => eval_hsetOne_unchecked world key [] field (str new)
    versionEq
  simp only [List.map_nil, List.nil_append] at write
  have nonneg : ¬((1 : Int) < 0) := by decide
  cases found : fields.get field with
  | none =>
      simp only [HashCommand.denote, found] at small ⊢
      obtain ⟨world', state', run, confined, valid, value⟩ := stored by' small
      refine ⟨world', state', ?_, confined, valid, value⟩
      rw [found] at item run
      by_cases live : fields.size = 0
      · simp only [procHincrby, hincr, hincrCommon, eval_recordKeyLock, Program.eval_bind, readMeta,
          if_pos live, lt_irrefl, if_false, gt_iff_lt, Program.pure_eq_done, Program.eval_done,
          incrInteger, if_true, write, if_neg nonneg, zero_ne_one]
        simp only [Option.isSome_none, Bool.false_eq_true, if_false] at run
        simp only [run, if_neg nonneg, Program.eval_done]
      · simp only [procHincrby, hincr, hincrCommon, eval_recordKeyLock, Program.eval_bind, readMeta,
          if_neg live, if_neg nonneg, gt_iff_lt, zero_lt_one, if_true, versionEq, item, lt_irrefl,
          if_false, incrInteger, Program.pure_eq_done, write, zero_ne_one]
        simp only [Option.isSome_none, Bool.false_eq_true, if_false] at run
        simp only [run, if_neg nonneg, Program.eval_done]
  | some old =>
      have live : fields.size ≠ 0 := fun zero => by
        rw [get_of_size_eq_zero zero] at found
        simp at found
      rw [found] at item
      have refused : ∀ code, incrInteger by' old 1 = .error code →
          (procHincrby key.1 field by').eval atomically world = (.error code, world) := by
        intro code rest
        simp only [procHincrby, hincr, hincrCommon, eval_recordKeyLock, Program.eval_bind, readMeta,
          if_neg live, if_neg nonneg, gt_iff_lt, zero_lt_one, if_true, versionEq, item, rest]
        rfl
      have counted : ∀ new, incrInteger by' old 1 = .ok new →
          (procHincrby key.1 field by').eval atomically world =
            (do
              let ret ← commitHash key.1 ([(⟨.item key version field, some (str new)⟩ :
                Update)].map Update.encode) (encodeMetaKey key.1) hv 0
              if ret < 0 then return Reply.error ret else return .int new.toInt :
                Command Reply).eval atomically world := by
        intro new rest
        simp only [procHincrby, hincr, hincrCommon, eval_recordKeyLock, Program.eval_bind, readMeta,
          if_neg live, if_neg nonneg, gt_iff_lt, zero_lt_one, if_true, versionEq, item, rest, write,
          Program.eval_ite]
        split_ifs <;> rfl
      have incremented := incrInteger_eq by' old
      simp only [HashCommand.denote, found] at small ⊢
      cases text : textInteger old with
      | none =>
          rw [text] at incremented small
          exact view.refines_self (refused _ incremented)
      | some n =>
          rw [text] at incremented small
          simp only at incremented small ⊢
          split_ifs at incremented small ⊢ with fits
          · obtain ⟨world', state', run, confined, valid, value⟩ := stored _ small
            refine ⟨world', state', ?_, confined, valid, value⟩
            rw [found] at run
            rw [counted _ incremented]
            simp only [Program.eval_bind, Option.isSome_some, if_true] at run ⊢
            simp only [run, if_neg nonneg]
            rw [Int64.toInt_ofInt_of_le fits.1 fits.2]
            rfl
          · exact view.refines_self (refused _ incremented)

theorem HashView.eval_hget (view : HashView world.db.contents key state fields version)
    (field : Bytes) :
    (Vcdb.hget key.1 field).eval atomically world =
      ((if fields.size = 0 then 0 else 1, fields.get field), world) := by
  obtain ⟨hv, readMeta, versionEq, _⟩ := view.eval_getHashMetaVal
  have item := eval_getHashItemValInternal world key version field
  rw [view.items] at item
  by_cases absent : fields.size = 0
  · simp only [Vcdb.hget, Program.eval_bind, readMeta, if_pos absent, ne_eq, zero_ne_one,
      not_false_eq_true, if_true, get_of_size_eq_zero absent]
    rfl
  · simp only [Vcdb.hget, Program.eval_bind, readMeta, if_neg absent, ne_eq, not_true_eq_false,
      if_false, versionEq, item]
    cases fields.get field <;> rfl

theorem HashView.hget (view : HashView world.db.contents key state fields version)
    (field : Bytes) :
    Refines (procHget key.1 field) world key
      (match fields.get field with
        | some val => .bulk val
        | none => .nil, Value.ofFields fields) := by
  apply view.refines_self
  simp only [procHget, Program.eval_bind, view.eval_hget, if_neg (existing_nonneg fields)]
  cases fields.get field <;> rfl

theorem HashView.hexists (view : HashView world.db.contents key state fields version)
    (field : Bytes) :
    Refines (procHexists key.1 field) world key
      (.int (if (fields.get field).isSome then 1 else 0), Value.ofFields fields) := by
  apply view.refines_self
  simp only [procHexists, Program.eval_bind, view.eval_hget, if_neg (existing_nonneg fields),
    Program.eval_ite, Program.pure_eq_done, Program.eval_done]
  by_cases absent : fields.size = 0
  · simp [absent, get_of_size_eq_zero absent field]
  · simp [absent]

theorem HashView.hlen (view : HashView world.db.contents key state fields version) :
    Refines (procHlen key.1) world key (.int fields.size, Value.ofFields fields) := by
  obtain ⟨hv, readMeta, versionEq, lengthEq⟩ := view.eval_getHashMetaVal
  apply view.refines_self
  have exact : hv.length.toNat = fields.size := by
    rw [lengthEq, UInt64.toNat_ofNat_of_lt' view.small]
  by_cases absent : fields.size = 0
  · simp only [procHlen, hsize, Program.eval_bind, readMeta, if_pos absent, ne_eq, zero_ne_one,
      not_false_eq_true, if_true, Program.pure_eq_done, Program.eval_done, lt_irrefl, if_false]
    rw [absent]
    rfl
  · simp only [procHlen, hsize, Program.eval_bind, readMeta, if_neg absent, ne_eq,
      not_true_eq_false, if_false, Program.pure_eq_done, Program.eval_done, exact]
    rfl

theorem eval_hmgetLoop (view : HashView world.db.contents key state fields version) {hv : MetaVal}
    (versionEq : hv.version = version) (asked : List Bytes) (resMap : SortedMap Bytes Bytes)
    (sound : ∀ field val, resMap.get field = some val → fields.get field = some val) :
    ∃ result, (hmgetLoop hv key.1 asked resMap).eval atomically world = (.ok result, world) ∧
      (∀ field val, result.get field = some val → fields.get field = some val) ∧
      ∀ field, field ∈ asked ∨ resMap.get field = fields.get field →
        result.get field = fields.get field := by
  induction asked generalizing resMap with
  | nil => exact ⟨resMap, rfl, sound, by simp⟩
  | cons first asked ih =>
      have item := eval_getHashItemValInternal world key version
        first
      rw [view.items] at item
      rw [hmgetLoop]
      simp only [Program.eval_bind, versionEq, item]
      cases found : fields.get first with
      | none =>
          have missing : resMap.get first = none := by
            cases stored : resMap.get first with
            | none => rfl
            | some val => rw [sound first val stored] at found; simp at found
          simp only [zero_ne_one, if_false, if_true]
          obtain ⟨result, run, sound', complete⟩ := ih resMap sound
          refine ⟨result, run, sound', fun field known => complete field ?_⟩
          rcases known with mem | same
          · rcases List.mem_cons.mp mem with rfl | mem
            · exact Or.inr (missing.trans found.symm)
            · exact Or.inl mem
          · exact Or.inr same
      | some val =>
          simp only [if_true]
          obtain ⟨result, run, sound', complete⟩ := ih (resMap.put first val) (by
            intro field val' stored
            rw [SortedMap.get_put] at stored
            split_ifs at stored with same
            · rw [same, found, stored]
            · exact sound field val' stored)
          refine ⟨result, run, sound', fun field known => complete field ?_⟩
          rw [SortedMap.get_put]
          by_cases same : field = first
          · exact Or.inr (by rw [if_pos same, same, found])
          · rw [if_neg same]
            exact known.imp_left fun mem => (List.mem_cons.mp mem).resolve_left same

theorem HashView.hmget (view : HashView world.db.contents key state fields version)
    {asked : List Bytes} (nonempty : asked ≠ []) :
    Refines (procHmget key.1 asked) world key
      (.list (asked.map fields.get), Value.ofFields fields) := by
  obtain ⟨hv, readMeta, versionEq, _⟩ := view.eval_getHashMetaVal
  apply view.refines_self
  by_cases absent : fields.size = 0
  · have nothing : asked.map (∅ : SortedMap Bytes Bytes).get = asked.map fields.get := by
      rw [SortedMap.size_eq_zero.mp absent]
    simp only [procHmget, if_neg nonempty, Vcdb.hmget, Program.eval_bind, eval_recordKeyLock,
      readMeta, if_pos absent, zero_ne_one, if_false, ne_eq, Program.pure_eq_done,
      Program.eval_done, not_false_eq_true, if_true, lt_irrefl, nothing]
  · obtain ⟨result, run, _, complete⟩ := eval_hmgetLoop view versionEq asked ∅ (by simp)
    have answers : asked.map result.get = asked.map fields.get :=
      List.map_congr_left fun field mem => complete field (Or.inl mem)
    have nonneg : ¬((1 : Int) < 0) := by decide
    simp only [procHmget, if_neg nonempty, Vcdb.hmget, Program.eval_bind, eval_recordKeyLock,
      readMeta, if_neg absent, if_true, eval_getSnapshot, Program.pure_eq_done, Program.eval_done,
      ne_eq, not_true_eq_false, if_false, run, if_neg nonneg, answers]

/-- Fields and values in the order of the store, as far as they are asked for. -/
def listing (fields : SortedMap Bytes Bytes) (saveKey saveValue : Bool) : List Bytes :=
  fields.entries.flatMap fun entry =>
    (if saveKey then [entry.1] else []) ++ (if saveValue then [entry.2] else [])

theorem HashView.hlist (view : HashView world.db.contents key state fields version)
    (saveKey saveValue : Bool) :
    Refines (procHlist saveKey saveValue key.1) world key
      (.strings (listing fields saveKey saveValue), Value.ofFields fields) := by
  obtain ⟨hv, readMeta, versionEq, _⟩ := view.eval_getHashMetaVal
  apply view.refines_self
  by_cases absent : fields.size = 0
  · have nothing : listing fields saveKey saveValue = [] := by
      rw [SortedMap.size_eq_zero.mp absent]
      rfl
    simp only [procHlist, Vcdb.hgetall, Program.eval_bind, eval_recordKeyLock, readMeta,
      if_pos absent, zero_ne_one, if_false, ne_eq, Program.pure_eq_done, Program.eval_done,
      not_false_eq_true, if_true, lt_irrefl, nothing]
    rfl
  · have scanned : hiterator world.db key.1 hv.version = fields.entries := by
      rw [hiterator_eq_items, versionEq]
      congr 1
      ext field : 1
      rw [DB.get_items]
      exact view.items field
    have nonneg : ¬((1 : Int) < 0) := by decide
    simp only [procHlist, Vcdb.hgetall, Program.eval_bind, eval_recordKeyLock, readMeta,
      if_neg absent, if_true, eval_getSnapshot, Program.pure_eq_done, Program.eval_done, ne_eq,
      not_true_eq_false, if_false, scanned, if_neg nonneg, one_ne_zero]
    rfl

end Commands

/-- Every hash command with enough arguments computes its meaning on the finite map. -/
theorem HashView.refines {world : World} {key : UserKey} {state : Option (UInt16 × Value)}
    {fields : SortedMap Bytes Bytes} {version : UInt16}
    (view : HashView world.db.contents key state fields version) {command : HashCommand}
    (own : command.key = key.1) (complete : command.argumentError = none)
    (small : (command.denote fields).2.size < 2 ^ 64) :
    Refines command.run world key
      ((command.denote fields).1, Value.ofFields (command.denote fields).2) := by
  cases command with
  | hset name field val => cases own; exact view.hset field val small
  | hsetnx name field val =>
      cases own
      have refines := view.hsetnx field val
      simp only [HashCommand.denote] at small ⊢
      split_ifs at small refines ⊢ with found
      · apply refines
        rw [SortedMap.size_put, if_pos found]
        exact small
      · exact refines small
  | hmset name kvs =>
      cases own
      exact view.hmset (by rintro rfl; exact absurd complete (by simp [HashCommand.argumentError]))
        small
  | hdel name removed =>
      cases own
      exact view.hdel (by rintro rfl; exact absurd complete (by simp [HashCommand.argumentError]))
  | hincrby name field by' => cases own; exact view.hincrby field by' small
  | hget name field => cases own; exact view.hget field
  | hmget name asked =>
      cases own
      exact view.hmget (by rintro rfl; exact absurd complete (by simp [HashCommand.argumentError]))
  | hgetall name => cases own; exact view.hlist true true
  | hkeys name =>
      cases own
      have refines := view.hlist true false
      rwa [show listing fields true false = fields.keys by
        simp [listing, SortedMap.keys, List.map_eq_flatMap]] at refines
  | hvals name =>
      cases own
      have refines := view.hlist false true
      rwa [show listing fields false true = fields.values by
        simp [listing, SortedMap.values, List.map_eq_flatMap]] at refines
  | hexists name field => cases own; exact view.hexists field
  | hlen name => cases own; exact view.hlen

/-- A request with too few arguments is refused before the store is read. -/
theorem HashCommand.eval_incomplete {world : World} {command : HashCommand} {reply : Reply}
    (incomplete : command.argumentError = some reply) :
    command.run.eval atomically world = (reply, world) := by
  match command, incomplete with
  | .hmset _ [], rfl => rfl
  | .hdel _ [], rfl => rfl
  | .hmget _ [], rfl => rfl

/-- On a key of another type every hash command reports the error and does nothing. -/
theorem HashCommand.eval_wrongType {world : World} {key : UserKey} {version : UInt16}
    {value : Value} (live : world.db.contents.LiveAs key version value)
    (other : value.type ≠ DataType.hsize) {command : HashCommand} (own : command.key = key.1)
    (complete : command.argumentError = none) :
    command.run.eval atomically world = (.error wrongTypeErr, world) := by
  obtain ⟨mv, readMeta⟩ := eval_getMetaVal_wrongType DataType.hsize live other
  have negative : wrongTypeErr < 0 := by decide
  have notOne : wrongTypeErr ≠ 1 := by decide
  cases command <;> cases own
  case hmset kvs =>
    cases kvs with
    | nil => simp [argumentError] at complete
    | cons kv kvs =>
        simp [run, procHmset, Vcdb.hmset, hmsetNoLock, getHashMetaVal, readMeta, negative]
  case hdel removed =>
    cases removed with
    | nil => simp [argumentError] at complete
    | cons field removed =>
        simp [run, procHdel, Vcdb.hdel, getHashMetaVal, readMeta, negative, notOne]
  case hmget asked =>
    cases asked with
    | nil => simp [argumentError] at complete
    | cons field asked =>
        simp [run, procHmget, Vcdb.hmget, getHashMetaVal, readMeta, negative, notOne]
  all_goals simp [run, procHset, procHsetnx, procHincrby, procHget, procHgetall, procHkeys,
    procHvals, procHlist, procHexists, procHlen, Vcdb.hset, Vcdb.hsetnx, hsetCommon, hincr,
    hincrCommon, Vcdb.hget, Vcdb.hgetall, hsize, getHashMetaVal, readMeta, negative, notOne]

/-- On a missing key a hash command that creates nothing answers as on the empty map. -/
theorem HashCommand.eval_idle {world : World} {key : UserKey}
    (valid : KeyValid world.db.contents key none) {command : HashCommand}
    (own : command.key = key.1) (complete : command.argumentError = none)
    (creates : (command.denote ∅).2.size = 0) :
    command.run.eval atomically world = ((command.denote ∅).1, world) := by
  obtain ⟨hv, readMeta, _, _⟩ :=
    eval_getMetaVal_idle DataType.hsize DataType.hsize valid
  have noPut : ∀ field val, (SortedMap.put (∅ : SortedMap Bytes Bytes) field val).size ≠ 0 :=
    fun field val => (size_put_pos _ field val).ne'
  have erased : ∀ removed : List Bytes, (∅ : SortedMap Bytes Bytes).eraseAll removed = ∅ := by
    intro removed
    ext field : 1
    simp [SortedMap.get_eraseAll]
  cases command <;> cases own
  case hset field val => exact absurd creates (noPut field val)
  case hsetnx field val => exact absurd creates (noPut field val)
  case hincrby field by' => exact absurd creates (noPut field _)
  case hmset kvs =>
    cases kvs with
    | nil => simp [argumentError] at complete
    | cons kv kvs =>
        have found : ((denote ∅ (hmset key.1 (kv :: kvs))).2.get kv.1).isSome := by
          rw [← SortedMap.mem_keys]
          exact SortedMap.mem_keys_putAll.mpr (by simp)
        rw [SortedMap.size_eq_zero.mp creates] at found
        exact absurd found (by simp)
  case hdel removed =>
    cases removed with
    | nil => simp [argumentError] at complete
    | cons field removed =>
        simp [run, procHdel, Vcdb.hdel, getHashMetaVal, readMeta, denote, erased]
  case hmget asked =>
    cases asked with
    | nil => simp [argumentError] at complete
    | cons field asked =>
        simp [run, procHmget, Vcdb.hmget, getHashMetaVal, readMeta, denote]
  all_goals simp [run, procHget, procHgetall, procHkeys, procHvals, procHlist, procHexists,
    procHlen, Vcdb.hget, Vcdb.hgetall, hsize, getHashMetaVal, readMeta, denote, SortedMap.size,
    SortedMap.keys, SortedMap.values, Reply.strings]

/-- A hash command answers and changes its key as it does on the value the key holds. -/
theorem HashCommand.refines {world : World} {key : UserKey} {state : Option (UInt16 × Value)}
    (valid : KeyValid world.db.contents key state) {command : HashCommand}
    (own : command.key = key.1)
    (fresh : state = none → (command.respond none).2 ≠ none → world.db.contents.Fresh key)
    (small : ∀ fields, (command.respond (state.map Prod.snd)).2 = some (.hash fields) →
      fields.size < 2 ^ 64) :
    Refines command.run world key (command.respond (state.map Prod.snd)) := by
  have stays : ∀ {reply}, command.run.eval atomically world = (reply, world) →
      Refines command.run world key (reply, state.map Prod.snd) := Refines.of_eval valid
  have bounded : ∀ fields, (∀ fields', Value.ofFields fields = some (.hash fields') →
      fields'.size < 2 ^ 64) → fields.size < 2 ^ 64 := by
    intro fields bound
    by_cases zero : fields.size = 0
    · omega
    · exact bound fields (by rw [Value.ofFields, if_neg zero])
  unfold respond at small ⊢
  cases complete : command.argumentError with
  | some reply => exact stays (eval_incomplete complete)
  | none =>
      rw [complete] at small
      match state, valid with
      | none, valid =>
          by_cases creates : (command.denote ∅).2.size = 0
          · have nothing : Value.ofFields (command.denote ∅).2 = none := if_pos creates
            rw [Option.map_none, nothing]
            exact stays (eval_idle valid own complete creates)
          · refine (HashView.ofIdle valid (fresh rfl ?_)).refines own complete (bounded _ small)
            simp only [respond, complete, Value.ofFields, if_neg creates]
            simp
      | some (version, .hash fields), valid =>
          exact (HashView.ofLive valid).refines own complete (bounded _ small)
      | some (version, .string val), valid =>
          exact stays (eval_wrongType valid.represented
            (show DataType.kv ≠ DataType.hsize by decide) own complete)
      | some (version, .set members), valid =>
          exact stays (eval_wrongType valid.represented
            (show DataType.ssize ≠ DataType.hsize by decide) own complete)
      | some (version, .zset scores), valid =>
          exact stays (eval_wrongType valid.represented
            (show DataType.zsize ≠ DataType.hsize by decide) own complete)
      | some (version, .list cells), valid =>
          exact stays (eval_wrongType valid.represented
            (show DataType.lsize ≠ DataType.hsize by decide) own complete)

end Vcdb
