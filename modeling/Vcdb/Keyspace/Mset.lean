import Vcdb.Keyspace.Ledger

/-!
# Several strings at once

MSET reads every key before it writes any, and still leaves the store as the SETs of its pairs do
one after the other: what it writes for a key says the same after it has been written.
-/

namespace Vcdb

/-- A key that cannot be set: it is live with a type other than string, or its metadata cannot be
read. -/
def HoldsOther (db : DB) (key : Bytes) : Prop :=
  ∃ metaVal, db.get (encodeMetaKey key) = some metaVal ∧
    ∀ header rest, decodeMetaHeader metaVal = some (header, rest) →
      header.del = keyEnabledMask ∧ header.type ≠ DataType.kv

/-- What a SET without options writes. -/
def setBatch (db : DB) (key val : Bytes) : WriteBatch :=
  .put (encodeMetaKey key) (encodeKvVal val (kvRead (db.get (encodeMetaKey key))).2.version) ::
    forgetBatch db key

/-- The store after a SET that goes by what is read from another store. -/
def setIn (base db : DB) (kv : Bytes × Bytes) : DB := (setBatch base kv.1 kv.2).apply db

section Set

variable {world : World} {key : Bytes}

theorem kvRead_neg_iff {metaVal rest : Bytes} {header : MetaHeader}
    (decoded : decodeMetaHeader metaVal = some (header, rest)) :
    (kvRead (some metaVal)).1 < 0 ↔ header.del = keyEnabledMask ∧ header.type ≠ DataType.kv := by
  simp only [kvRead, KvMetaVal.decodeMetaVal, decoded, Bool.false_eq_true, if_false]
  rcases decodeMetaHeader_flag decoded with deleted | enabled
  · simp only [deleted, if_true]
    exact iff_of_false (lt_irrefl 0) fun both => enabled_ne_delete both.1.symm
  · simp only [enabled, if_neg enabled_ne_delete]
    by_cases other : header.type ≠ DataType.kv
    · simp only [if_pos other]
      exact iff_of_true (by decide) ⟨trivial, other⟩
    · simp only [if_neg other, if_neg enabled_ne_delete]
      exact iff_of_false (by decide) fun both => other both.2

theorem holdsOther_iff {db : DB} :
    HoldsOther db key ↔ (kvRead (db.get (encodeMetaKey key))).1 < 0 := by
  rw [HoldsOther]
  cases db.get (encodeMetaKey key) with
  | none => exact iff_of_false (fun found => by simp at found) (lt_irrefl 0)
  | some metaVal =>
      simp only [Option.some.injEq, exists_eq_left']
      cases decoded : decodeMetaHeader metaVal with
      | none =>
          simp only [kvRead, KvMetaVal.decodeMetaVal, decoded]
          exact iff_of_true (fun header rest found => by cases found) (by decide)
      | some found =>
          rw [kvRead_neg_iff decoded]
          constructor
          · exact fun every => every found.1 found.2 rfl
          · rintro both header rest same
            cases same
            exact both

theorem kvRead_of_settable {db : DB} (settable : ¬HoldsOther db key) :
    (kvRead (db.get (encodeMetaKey key))).1 = 0 ∨ (kvRead (db.get (encodeMetaKey key))).1 = 1 :=
  (kvRead_cases _).resolve_left fun negative => settable (holdsOther_iff.mpr negative)

theorem eval_setGeneric_refused (holds : HoldsOther world.db key) (batch : WriteBatch)
    (val : Bytes) : (setGeneric key batch val {} 0).eval atomically world =
      (((kvRead (world.db.get (encodeMetaKey key))).1, 0, batch), world) := by
  rw [holdsOther_iff] at holds
  simp only [setGeneric, Bool.false_eq_true, or_self, false_and, if_false, Program.eval_bind,
    eval_getKvMetaVal, if_pos holds]
  rfl

theorem eval_setGeneric (settable : ¬HoldsOther world.db key) (batch : WriteBatch) (val : Bytes) :
    (setGeneric key batch val {} 0).eval atomically world =
      ((1, 1, batch ++ setBatch world.db key val), world.delFastKey key) := by
  obtain ⟨ret, nonneg, cancelled⟩ := eval_cancelExpiration_batch world key (batch ++
    [.put (encodeMetaKey key)
      (encodeKvVal val (kvRead (world.db.get (encodeMetaKey key))).2.version)])
  have readable : ¬(kvRead (world.db.get (encodeMetaKey key))).1 < 0 :=
    fun negative => settable (holdsOther_iff.mpr negative)
  rw [List.append_assoc, List.singleton_append] at cancelled
  simp only [setGeneric, Bool.false_eq_true, or_self, false_and, if_false, Program.eval_bind,
    eval_getKvMetaVal, if_neg readable, ite_self, if_true, cancelled, setBatch]
  rfl

/-- A SET without options succeeds. -/
theorem eval_procSet (settable : ¬HoldsOther world.db key) (val : Bytes) :
    (procSet key val []).eval atomically world =
      (.ok, (world.delFastKey key).withDB (setIn world.db world.db (key, val))) := by
  have options : procSet key val [] = setWithOptions key val {} := rfl
  have instant : convert2ms (SetOptions.ttl {}) (SetOptions.unit {}) = .ok 0 := rfl
  have run := eval_setGeneric settable [] val
  rw [List.nil_append] at run
  simp only [options, setWithOptions, instant, Kv.set, eval_recordKeyLock, setNoLock,
    Program.eval_bind, run]
  rfl

section Frozen

variable {base db : DB}

/-- What is read from a store for a key is what would be read from the one the batch was computed
from, or the key has been set at the version that was read there. -/
def SetOrUnread (base db : DB) (key : Bytes) : Prop :=
  ((db.ledger key).metaVal = (base.ledger key).metaVal ∧
      (db.ledger key).expiry = (base.ledger key).expiry) ∨
    (∃ val, (db.ledger key).metaVal =
        some (encodeKvVal val (kvRead (base.ledger key).metaVal).2.version)) ∧
      (db.ledger key).expiry = none ∧
      ∀ strScore, (base.ledger key).expiry = some strScore →
        (db.ledger key).index (readHostOrder64 strScore) = none

theorem ledger_setIn (kv : Bytes × Bytes) :
    (setIn base db kv).ledger = Function.update db.ledger kv.1
      (({ db.ledger kv.1 with metaVal := some (encodeKvVal kv.2
        (kvRead (base.ledger kv.1).metaVal).2.version) } : KeyRecords).forget
          (base.ledger kv.1).expiry) := by
  have front : setIn base db kv = (forgetBatch base kv.1).apply (db.put (encodeMetaKey kv.1)
      (encodeKvVal kv.2 (kvRead (base.get (encodeMetaKey kv.1))).2.version)) := rfl
  rw [front, ledger_forgetBatch, ledger_put_metaKey, Function.update_self, Function.update_idem]
  rfl

/-- A key stays unread until it is set. -/
theorem setOrUnread_setIn (kv : Bytes × Bytes) (key : Bytes) (before : SetOrUnread base db key) :
    SetOrUnread base (setIn base db kv) key := by
  rw [SetOrUnread, ledger_setIn, Function.update_apply]
  by_cases same : key = kv.1
  · subst same
    rw [if_pos rfl]
    right
    cases stored : (base.ledger kv.1).expiry with
    | none =>
        refine ⟨⟨kv.2, rfl⟩, ?_, fun strScore found => by cases found⟩
        rcases before with ⟨_, unread⟩ | ⟨_, gone, _⟩
        · exact unread.trans stored
        · exact gone
    | some strScore =>
        refine ⟨⟨kv.2, rfl⟩, rfl, fun other found => ?_⟩
        cases found
        exact Function.update_self _ _ _
  · rw [if_neg same]
    exact before

theorem kvRead_written (val : Bytes) (version : UInt16) :
    kvRead (some (encodeKvVal val version)) = (1, ⟨DataType.kv, keyEnabledMask, version, val⟩) := by
  simp only [kvRead, KvMetaVal.decodeMetaVal_encode, if_neg enabled_ne_delete]

/-- Forgetting an expiry that is gone changes nothing. -/
theorem apply_forgetBatch_of_gone {key : Bytes} (metaVal : Bytes)
    (gone : db.get (encodeEsetKey key) = none)
    (index : ∀ strScore, (base.ledger key).expiry = some strScore →
      (db.ledger key).index (readHostOrder64 strScore) = none) :
    WriteBatch.apply (.put (encodeMetaKey key) metaVal :: forgetBatch base key) db =
      WriteBatch.apply [.put (encodeMetaKey key) metaVal] db := by
  rw [forgetBatch]
  cases stored : base.get (encodeEsetKey key) with
  | none => rfl
  | some strScore =>
      have unlisted : db.get (encodeEscoreKey key (readHostOrder64 strScore)) = none :=
        index strScore stored
      refine SortedMap.ext fun record => ?_
      change (((db.put _ _).erase _).erase _).get record = (db.put _ _).get record
      rw [SortedMap.get_erase, SortedMap.get_erase]
      split_ifs with isExpiry isIndex
      · rw [isExpiry, SortedMap.get_put, if_neg (encodeEsetKey_ne_metaKey key key), gone]
      · rw [isIndex, SortedMap.get_put, if_neg (encodeEscoreKey_ne_metaKey key key _), unlisted]
      · rfl

/-- It makes no difference from which of the two stores a SET reads. -/
theorem setIn_eq (kv : Bytes × Bytes) (before : SetOrUnread base db kv.1) :
    setIn base db kv = setIn db db kv := by
  rcases before with ⟨metaVal, expiry⟩ | ⟨⟨val, metaVal⟩, expiry, index⟩
  · have sameMeta : db.get (encodeMetaKey kv.1) = base.get (encodeMetaKey kv.1) := metaVal
    have sameExpiry : db.get (encodeEsetKey kv.1) = base.get (encodeEsetKey kv.1) := expiry
    rw [setIn, setIn, setBatch, setBatch, forgetBatch, forgetBatch, sameMeta, sameExpiry]
  · have written : db.get (encodeMetaKey kv.1) =
        some (encodeKvVal val (kvRead (base.get (encodeMetaKey kv.1))).2.version) := metaVal
    have gone : db.get (encodeEsetKey kv.1) = none := expiry
    have nothing : forgetBatch db kv.1 = [] := by rw [forgetBatch, gone]
    rw [setIn, setIn, setBatch, setBatch, nothing, written, kvRead_written]
    exact apply_forgetBatch_of_gone _ gone index

theorem holdsOther_of_setOrUnread {key : Bytes} (settable : ¬HoldsOther base key)
    (before : SetOrUnread base db key) : ¬HoldsOther db key := by
  rw [holdsOther_iff] at settable ⊢
  rcases before with ⟨metaVal, _⟩ | ⟨⟨val, metaVal⟩, _⟩
  · have same : db.get (encodeMetaKey key) = base.get (encodeMetaKey key) := metaVal
    rwa [same]
  · have written : db.get (encodeMetaKey key) =
        some (encodeKvVal val (kvRead (base.get (encodeMetaKey key))).2.version) := metaVal
    rw [written, kvRead_written]
    exact (by decide : ¬(1 : Int) < 0)

end Frozen

end Set

section Run

variable {base : DB}

/-- The store after SETs of the pairs, one after the other. -/
theorem procSets_db (kvs : List (Bytes × Bytes)) (world : World)
    (settable : ∀ kv ∈ kvs, ¬HoldsOther base kv.1)
    (before : ∀ key, SetOrUnread base world.db key) :
    (kvs.foldl (fun world kv => ((procSet kv.1 kv.2 []).eval atomically world).2) world).db =
      kvs.foldl (setIn base) world.db := by
  induction kvs generalizing world with
  | nil => rfl
  | cons kv kvs ih =>
      have ready := holdsOther_of_setOrUnread (settable kv List.mem_cons_self) (before kv.1)
      rw [List.foldl_cons, List.foldl_cons, eval_procSet ready kv.2, setIn_eq kv (before kv.1)]
      refine ih _ (fun other mem => settable other (List.mem_cons_of_mem _ mem)) fun key => ?_
      have after := setOrUnread_setIn kv key (before key)
      rwa [setIn_eq kv (before kv.1)] at after

theorem apply_flatMap_setBatch (kvs : List (Bytes × Bytes)) (db : DB) :
    WriteBatch.apply (kvs.flatMap fun kv => setBatch base kv.1 kv.2) db =
      kvs.foldl (setIn base) db := by
  induction kvs generalizing db with
  | nil => rfl
  | cons kv kvs ih => rw [List.flatMap_cons, WriteBatch.apply_append, ih, List.foldl_cons, setIn]

/-- Every pair adds to the batch what its SET would write to the store as it is. -/
theorem eval_multiSetLoop (kvs : List (Bytes × Bytes)) (world : World) (seen : List Bytes)
    (batch : WriteBatch) {rval : Int} (nonneg : 0 ≤ rval)
    (settable : ∀ kv ∈ kvs, ¬HoldsOther world.db kv.1) :
    ∃ count after, 0 ≤ count ∧ (multiSetLoop kvs seen batch rval).eval atomically world =
        (.ok (count, batch ++ kvs.flatMap fun kv => setBatch world.db kv.1 kv.2), after) ∧
      after.db = world.db := by
  induction kvs generalizing world seen batch rval with
  | nil => exact ⟨rval, world, nonneg, by rw [List.flatMap_nil, List.append_nil]; rfl, rfl⟩
  | cons kv kvs ih =>
      have counted : 0 ≤ if seen.contains kv.1 then rval else rval + 1 := by
        split_ifs <;> omega
      obtain ⟨count, after, positive, run, same⟩ := ih (world.delFastKey kv.1) (kv.1 :: seen)
        (batch ++ setBatch world.db kv.1 kv.2) counted
        fun other mem => settable other (List.mem_cons_of_mem _ mem)
      refine ⟨count, after, positive, ?_, same⟩
      rw [World.db_delFastKey, List.append_assoc] at run
      simp only [multiSetLoop, Program.eval_bind, eval_recordKeyLock,
        eval_setGeneric (settable kv List.mem_cons_self), List.flatMap_cons, ← run]
      rfl

/-- The first key that cannot be set ends the loop. -/
theorem eval_multiSetLoop_refused (kvs : List (Bytes × Bytes)) (world : World)
    (seen : List Bytes) (batch : WriteBatch) (rval : Int)
    (holds : ∃ kv ∈ kvs, HoldsOther world.db kv.1) :
    ∃ code after, code < 0 ∧
      (multiSetLoop kvs seen batch rval).eval atomically world = (.error code, after) ∧
      after.db = world.db := by
  induction kvs generalizing world seen batch rval with
  | nil =>
      obtain ⟨_, mem, _⟩ := holds
      cases mem
  | cons kv kvs ih =>
      by_cases other : HoldsOther world.db kv.1
      · have negative := holdsOther_iff.mp other
        refine ⟨_, world, negative, ?_, rfl⟩
        simp only [multiSetLoop, Program.eval_bind, eval_recordKeyLock,
          eval_setGeneric_refused other, if_pos negative]
        rfl
      · have later : ∃ kv ∈ kvs, HoldsOther (world.delFastKey kv.1).db kv.1 := by
          obtain ⟨found, mem, later⟩ := holds
          rcases List.mem_cons.mp mem with rfl | mem
          · exact absurd later other
          · exact ⟨found, mem, later⟩
        obtain ⟨code, after, negative, run, same⟩ := ih (world.delFastKey kv.1) (kv.1 :: seen)
          (batch ++ setBatch world.db kv.1 kv.2) (if seen.contains kv.1 then rval else rval + 1)
          later
        refine ⟨code, after, negative, ?_, same⟩
        simp only [multiSetLoop, Program.eval_bind, eval_recordKeyLock, eval_setGeneric other,
          ← run]
        rfl

/-- MSET leaves the store as the SETs of its pairs do, in their order; when one of the keys cannot
be set it reports an error and leaves the store as it was. -/
theorem procMset_sets (world : World) (kvs : List (Bytes × Bytes)) :
    ((∀ kv ∈ kvs, ¬HoldsOther world.db kv.1) →
      ((procMset kvs).eval atomically world).2.db =
        (kvs.foldl (fun world kv => ((procSet kv.1 kv.2 []).eval atomically world).2) world).db) ∧
    ((∃ kv ∈ kvs, HoldsOther world.db kv.1) →
      (∃ code < 0, ((procMset kvs).eval atomically world).1 = .error code) ∧
        ((procMset kvs).eval atomically world).2.db = world.db) := by
  constructor
  · intro settable
    rw [procSets_db kvs world settable fun key => Or.inl ⟨rfl, rfl⟩, procMset]
    split_ifs with none
    · rw [none]
      rfl
    · obtain ⟨count, after, nonneg, run, same⟩ :=
        eval_multiSetLoop kvs world [] [] (le_refl 0) settable
      rw [List.nil_append] at run
      have negative : ¬count < 0 := not_lt.mpr nonneg
      simp only [multiSet, Program.eval_bind, run, eval_commitBatch, if_true, Program.pure_eq_done,
        Program.eval_done, if_neg negative]
      change WriteBatch.apply _ after.db = _
      rw [same, apply_flatMap_setBatch]
  · intro holds
    have some : kvs ≠ [] := by
      rintro rfl
      obtain ⟨_, mem, _⟩ := holds
      cases mem
    obtain ⟨code, after, negative, run, same⟩ := eval_multiSetLoop_refused kvs world [] [] 0 holds
    have replied : (procMset kvs).eval atomically world = (.error code, after) := by
      simp only [procMset, if_neg some, multiSet, Program.eval_bind, run, Program.pure_eq_done,
        Program.eval_done, if_pos negative]
    rw [replied]
    exact ⟨⟨code, negative, rfl⟩, same⟩

/-- A string beside a hash. -/
def mixedWorld : World :=
  (stringWorld [107] [97]).putRecord (encodeMetaKey [104]) (encodeHashMetaVal 1 0)

/-- `MSET k b k c l d`, and `MSET k b h c` where `h` is a hash. -/
theorem procMset_sets_mixed :
    ((procMset [([107], [98]), ([107], [99]), ([108], [100])]).eval atomically mixedWorld).2.db =
        ([([107], [98]), ([107], [99]), ([108], [100])].foldl
          (fun world kv => ((procSet kv.1 kv.2 []).eval atomically world).2) mixedWorld).db ∧
      (∃ code < 0, ((procMset [([107], [98]), ([104], [99])]).eval atomically mixedWorld).1 =
        .error code) ∧
      ((procMset [([107], [98]), ([104], [99])]).eval atomically mixedWorld).2.db =
        mixedWorld.db := by
  have settable : ∀ kv ∈ [(([107] : Bytes), ([98] : Bytes)), ([107], [99]), ([108], [100])],
      ¬HoldsOther mixedWorld.db kv.1 := by
    simp only [holdsOther_iff]
    decide +kernel
  have holds : HoldsOther mixedWorld.db [104] := by
    rw [holdsOther_iff]
    decide +kernel
  exact ⟨(procMset_sets _ _).1 settable,
    (procMset_sets _ _).2 ⟨([104], [99]), List.mem_cons_of_mem _ List.mem_cons_self, holds⟩⟩

end Run

end Vcdb
