import Vcdb.Keyspace.Zset

/-!
# The sorted set commands one by one

Each command computes its meaning on the finite map of scores.  A removal by range deletes what its
scan meets, and a scan meets every stored member at most once.
-/

namespace Vcdb

section Commands

variable {world : World} {key : UserKey} {state : Option (UInt16 × Value)}
  {scores : SortedMap Bytes Double} {version : UInt16} {float : FloatUnit} {flags : ZaddFlags}

theorem nonneg_of_size (scores : SortedMap Bytes Double) :
    ¬(if scores.size = 0 then (0 : Int) else 1) < 0 := by
  split_ifs <;> decide

/-- The existence check is skipped only for a set without members. -/
theorem ZsetView.known (_view : ZsetView world.db.contents key state scores version) :
    decide ((if scores.size = 0 then (0 : Int) else 1) ≠ 0) = false → scores = ∅ := by
  intro unchecked
  by_contra nonempty
  rw [← SortedMap.size_eq_zero] at nonempty
  simp [nonempty] at unchecked

theorem elements_judgedUpdates {judged : List (Bytes × ZaddResult × Option Double)} {u : Update}
    (mem : u ∈ judgedUpdates key version scores judged) : u.IsElement key version := by
  rw [judgedUpdates, List.mem_flatMap] at mem
  obtain ⟨c, _, mem⟩ := mem
  exact isElement_putScore mem

theorem elements_deleteScore {removed : List Bytes} {u : Update}
    (mem : u ∈ removed.flatMap fun member => deleteScore key version (scores.get member) member) :
    u.IsElement key version := by
  obtain ⟨member, _, mem⟩ := List.mem_flatMap.mp mem
  exact isElement_deleteScore mem

/-- Without NX and XX every member is handled. -/
theorem zsetJudge_ne_nop (nx : flags.nx = false) (xx : flags.xx = false) {member : Bytes}
    {score : Double} {judged : ZaddResult × Option Double}
    (accepted : zsetJudge float flags scores member score = .ok judged) : judged.1 ≠ .nop := by
  rw [zsetJudge] at accepted
  split at accepted
  · cases accepted
  · cases stored : scores.get member with
    | none =>
        simp only [stored, xx, Bool.false_eq_true, if_false] at accepted
        cases accepted
        simp
    | some old =>
        simp only [stored, nx, Bool.false_eq_true, if_false] at accepted
        generalize (if flags.incr then float.add score old else score) = new at accepted
        split at accepted
        · cases accepted
        · split at accepted <;> cases accepted <;> simp

/-- A score that is not a number is the only one refused. -/
theorem zsetJudge_error {member : Bytes} {score : Double} {code : Int}
    (refused : zsetJudge float flags scores member score = .error code) : code = nanScore := by
  rw [zsetJudge] at refused
  split at refused
  · cases refused
    rfl
  · cases stored : scores.get member with
    | none =>
        simp only [stored] at refused
        split at refused <;> cases refused
    | some old =>
        simp only [stored] at refused
        generalize (if flags.incr then float.add score old else score) = new at refused
        split at refused
        · cases refused
        · split at refused
          · cases refused
            rfl
          · split at refused <;> cases refused

theorem zaddJudge_error {element : Bytes × Bytes} {code : Int}
    (refused : zaddJudge float flags scores element = .error code) : code < 0 := by
  rw [zaddJudge] at refused
  cases parsed : float.bytesDouble element.2 with
  | none =>
      rw [parsed] at refused
      cases refused
      decide
  | some score =>
      simp only [parsed] at refused
      cases judge : zsetJudge float flags scores element.1 score with
      | error code' =>
          rw [judge] at refused
          cases refused
          rw [zsetJudge_error judge]
          decide
      | ok outcome =>
          rw [judge] at refused
          cases refused

theorem mapM_zaddJudge_error {elements : List (Bytes × Bytes)} {code : Int}
    (refused : elements.mapM (zaddJudge float flags scores) = .error code) : code < 0 := by
  induction elements with
  | nil => cases refused
  | cons element elements ih =>
      rw [mapM_cons_zaddJudge] at refused
      cases first : zaddJudge float flags scores element with
      | error code' =>
          rw [first] at refused
          cases refused
          exact zaddJudge_error first
      | ok judged =>
          cases later : elements.mapM (zaddJudge float flags scores) with
          | error code' =>
              rw [first, later] at refused
              cases refused
              exact ih later
          | ok rest =>
              rw [first, later] at refused
              cases refused

/-- A map that stays empty was given no scores. -/
theorem changed_eq_nil {changed : List (Bytes × Double)} (distinct : (changed.map Prod.fst).Nodup)
    (emptied : (scores.putAll changed).size = 0) : changed = [] := by
  rw [SortedMap.size_putAll distinct] at emptied
  have empty : scores = ∅ := SortedMap.size_eq_zero.mp (by omega)
  subst empty
  by_contra nonempty
  obtain ⟨c, mem⟩ := List.exists_mem_of_ne_nil changed nonempty
  have counted : 0 < changed.countP fun c => ((∅ : SortedMap Bytes Double).get c.1).isNone :=
    List.countP_pos_iff.mpr ⟨c, mem, rfl⟩
  omega

theorem ZsetView.zadd (view : ZsetView world.db.contents key state scores version)
    {elements : List (Bytes × Bytes)} (nonempty : elements ≠ [])
    (compatible : ¬(flags.nx ∧ flags.xx)) (plain : flags.incr = false)
    (small : (ZsetCommand.denoteZadd float flags scores elements).2.size < 2 ^ 64) :
    Refines (procZadd float key.1 flags elements) world key
      ((ZsetCommand.denoteZadd float flags scores elements).1,
        Value.ofScores (ZsetCommand.denoteZadd float flags scores elements).2) := by
  obtain ⟨zv, readMeta, versionEq, lengthEq⟩ := view.eval_getZsetMetaVal
  have loop := eval_zsetLoop float flags (fun _ => view.stores) view.known
    (scoreMap flags.nx elements).entries
    [] 0 0
  simp only [List.map_nil, List.nil_append, zero_add] at loop
  obtain ⟨element, more, rfl⟩ := List.exists_cons_of_ne_nil nonempty
  unfold ZsetCommand.denoteZadd at small ⊢
  cases judges : (scoreMap flags.nx (element :: more)).entries.mapM
      (zaddJudge float flags scores) with
  | error code =>
      rw [judges] at loop
      apply view.refines_self
      simp only [procZadd, if_neg compatible, plain, Bool.false_eq_true, if_false, multiZset,
        zsetNoLock, false_and, eval_recordKeyLock, Program.eval_bind, readMeta,
        if_neg (nonneg_of_size scores), versionEq, loop, Except.map, Program.pure_eq_done,
        Program.eval_done, if_pos (mapM_zaddJudge_error judges)]
  | ok judged =>
      rw [judges] at small loop
      simp only at small
      obtain ⟨sublist, added, total⟩ := judged_sublist judges
      have distinct : ((judged.filterMap judgedChange).map Prod.fst).Nodup :=
        sublist.nodup (SortedMap.keys_nodup _)
      have size := SortedMap.size_putAll distinct scores
      rw [added] at size
      obtain ⟨world', state', run, confined, valid, value⟩ := view.eval_commitZset _
        (countResult .added judged) versionEq lengthEq
        (fun _ => elements_judgedUpdates) (view.stores.putAll _ distinct) (by omega) small (by
          intro emptied _
          rw [judgedUpdates, changed_eq_nil distinct emptied]
          rfl)
      refine ⟨world', state', ?_, confined, valid, value⟩
      have replies : (if flags.ch then
            (countResult .added judged : Int) + countResult .updated judged
          else countResult .added judged) =
          if flags.ch then ((judged.filterMap judgedChange).length : Int)
          else (scores.putAll (judged.filterMap judgedChange)).size - scores.size := by
        rw [size, total]
        push_cast
        split_ifs <;> ring
      have answered : ∀ iret num : Int, ¬(if iret + num > 0 then (1 : Int) else 0) < 0 := by
        intro iret num
        split_ifs <;> decide
      have settled : ¬(if (scores.putAll (judged.filterMap judgedChange)).size = 0 then (0 : Int)
          else 1) < 0 := nonneg_of_size _
      simp only [procZadd, if_neg compatible, plain, Bool.false_eq_true, if_false, multiZset,
        zsetNoLock, false_and, eval_recordKeyLock, Program.eval_bind, readMeta,
        if_neg (nonneg_of_size scores), versionEq, loop, Except.map, Program.pure_eq_done,
        Program.eval_done, run, if_neg settled, if_neg (answered _ _), replies]

theorem commitZset_zero {zv : MetaVal} (batch : WriteBatch) (nonzero : zv.length ≠ 0) :
    (commitZset key.1 batch zv 0).eval atomically world =
      (1, world.withDB (batch.apply world.db)) := by
  simp [commitZset, commitSize, incrZsize, incrSize, nonzero]

theorem apply_nil_batch : world.withDB (WriteBatch.apply [] world.db) = world := rfl

/-- An increment changes the score as judged. -/
theorem ZsetView.eval_zincr (view : ZsetView world.db.contents key state scores version)
    (member : Bytes) (increment : Double)
    (small : (ZsetCommand.denoteZincr float flags scores member increment).2.size < 2 ^ 64) :
    ∃ world' state', (zincr float key.1 member increment flags).eval atomically world =
        (zsetJudge float flags scores member increment, world') ∧
      Confined key world.db world'.db ∧ KeyValid world'.db.contents key state' ∧
      state'.map Prod.snd =
        Value.ofScores (ZsetCommand.denoteZincr float flags scores member increment).2 := by
  obtain ⟨zv, readMeta, versionEq, lengthEq⟩ := view.eval_getZsetMetaVal
  have write := eval_zsetOne float flags (fun _ => view.stores) view.known [] member increment
  simp only [List.map_nil, List.nil_append] at write
  unfold ZsetCommand.denoteZincr at small ⊢
  cases judge : zsetJudge float flags scores member increment with
  | error code =>
      rw [judge] at write
      refine ⟨world, state, ?_, .refl _ _, view.valid, view.value⟩
      simp only [zincr, eval_recordKeyLock, Program.eval_bind, readMeta,
        if_neg (nonneg_of_size scores), versionEq, write, Except.map, Program.pure_eq_done,
        Program.eval_done]
  | ok judged =>
      obtain ⟨result, newVal⟩ := judged
      rw [judge] at write small
      simp only at small
      have stays : judgedChange (member, result, newVal) = none → result ≠ .added →
          ∃ world' state', (zincr float key.1 member increment flags).eval atomically world =
              (.ok (result, newVal), world') ∧
            Confined key world.db world'.db ∧ KeyValid world'.db.contents key state' ∧
            state'.map Prod.snd = Value.ofScores scores := by
        intro nothing notAdded
        refine ⟨world, state, ?_, .refl _ _, view.valid, view.value⟩
        have unchanged : judgedUpdates key version scores [(member, result, newVal)] = [] := by
          rw [judgedUpdates, List.filterMap_cons_none nothing]
          rfl
        simp only [zincr, eval_recordKeyLock, Program.eval_bind, readMeta,
          if_neg (nonneg_of_size scores), versionEq, write, Except.map, if_neg notAdded, unchanged,
          List.map_nil, eval_commitBatch, apply_nil_batch, if_true, Program.pure_eq_done,
          Program.eval_done]
      rcases zsetJudge_cases judge with
        ⟨new, same, missing⟩ | ⟨new, same, stored⟩ | ⟨nothing, notAdded, _⟩
      · cases same
        have size : (scores.put member new).size = scores.size + 1 := by
          rw [SortedMap.size_put, missing]
          rfl
        obtain ⟨world', state', run, confined, valid, value⟩ := view.eval_commitZset
          (judgedUpdates key version scores [(member, .added, some new)]) 1 versionEq lengthEq
          (fun _ => elements_judgedUpdates)
          (view.stores.putAll [(member, new)] (List.nodup_singleton _)) (by
            change 1 = ((scores.put member new).size : Int) - scores.size
            omega) small (by
            intro emptied
            change (scores.put member new).size = 0 at emptied
            omega)
        refine ⟨world', state', ?_, confined, valid, value⟩
        simp only [zincr, eval_recordKeyLock, Program.eval_bind, readMeta,
          if_neg (nonneg_of_size scores), versionEq, write, Except.map, if_true, run,
          if_neg (nonneg_of_size _), Program.pure_eq_done, Program.eval_done]
      · cases same
        have size : (scores.put member new).size = scores.size := by
          rw [SortedMap.size_put, if_pos stored]
        have nonempty : scores.size ≠ 0 := fun zero => by
          rw [SortedMap.size_eq_zero.mp zero] at stored
          simp at stored
        have nonzero : zv.length ≠ 0 := by
          intro zero
          have word := congrArg UInt64.toNat (lengthEq.symm.trans zero)
          rw [UInt64.toNat_ofNat_of_lt' view.small] at word
          exact nonempty word
        -- The length stays, so that committing the batch alone does what a commit of the set does.
        obtain ⟨world', state', run, confined, valid, value⟩ := view.eval_commitZset
          (judgedUpdates key version scores [(member, .updated, some new)]) 0 versionEq lengthEq
          (fun _ => elements_judgedUpdates)
          (view.stores.putAll [(member, new)] (List.nodup_singleton _)) (by
            change 0 = ((scores.put member new).size : Int) - scores.size
            omega) small (fun _ empty => absurd empty nonempty)
        rw [commitZset_zero _ nonzero, Prod.mk.injEq] at run
        refine ⟨world', state', ?_, confined, valid, value⟩
        simp only [zincr, eval_recordKeyLock, Program.eval_bind, readMeta,
          if_neg (nonneg_of_size scores), versionEq, write, Except.map, reduceCtorEq, if_false,
          eval_commitBatch, if_true, run.2, Program.pure_eq_done, Program.eval_done]
      · simp only [nothing]
        exact stays nothing notAdded

/-- Deleting stored members, each named once, from a set that has members. -/
theorem ZsetView.eval_commit_delete (view : ZsetView world.db.contents key state scores version)
    {zv : MetaVal} (versionEq : zv.version = version)
    (lengthEq : zv.length = UInt64.ofNat scores.size) (live : scores.size ≠ 0)
    {removed : List Bytes} (distinct : removed.Nodup) {count : Nat}
    (counted : removed.countP (fun member => (scores.get member).isSome) = count) :
    ∃ world' state', (commitZset key.1 ((removed.flatMap fun member =>
          deleteScore key version (scores.get member) member).map Update.encode) zv
          (-count)).eval atomically world =
        ((if (scores.eraseAll removed).size = 0 then 0 else 1), world') ∧
      Confined key world.db world'.db ∧ KeyValid world'.db.contents key state' ∧
      state'.map Prod.snd = Value.ofScores (scores.eraseAll removed) := by
  have size := SortedMap.size_eraseAll distinct scores
  have small := view.small
  exact view.eval_commitZset _ _ versionEq lengthEq (fun _ => elements_deleteScore)
    (view.stores.deleteAll distinct) (by omega) (by omega) (fun _ empty => absurd empty live)

/-- Removing named members: those that are stored go, and are counted. -/
theorem ZsetView.eval_multiZdel (view : ZsetView world.db.contents key state scores version)
    (removed : SortedMap Bytes Unit) :
    ∃ world' state', (multiZdel key.1 removed).eval atomically world =
        ((if (scores.eraseAll removed.keys).size = 0 then 0 else 1,
          (scores.size - (scores.eraseAll removed.keys).size : Int)), world') ∧
      Confined key world.db world'.db ∧ KeyValid world'.db.contents key state' ∧
      state'.map Prod.snd = Value.ofScores (scores.eraseAll removed.keys) := by
  obtain ⟨zv, readMeta, versionEq, lengthEq⟩ := view.eval_getZsetMetaVal
  have size := SortedMap.size_eraseAll removed.keys_nodup scores
  by_cases empty : scores.size = 0
  · have unchanged : scores.eraseAll removed.keys = scores := by
      have stillEmpty : (scores.eraseAll removed.keys).size = 0 := by omega
      rw [SortedMap.size_eq_zero.mp stillEmpty, SortedMap.size_eq_zero.mp empty]
    refine ⟨world, state, ?_, .refl _ _, view.valid, by rw [unchanged]; exact view.value⟩
    simp only [multiZdel, zdelNoLock, eval_recordKeyLock, Program.eval_bind, readMeta, if_pos empty,
      le_refl, if_true, Program.pure_eq_done, Program.eval_done, unchanged, sub_self]
  · obtain ⟨world', state', run, confined, valid, value⟩ := view.eval_commit_delete versionEq
      lengthEq empty removed.keys_nodup rfl
    have loop := view.stores.eval_zdelLoop removed.keys [] 0
    simp only [List.map_nil, List.nil_append, zero_add] at loop
    have positive : ¬((1 : Int) ≤ 0) := by decide
    refine ⟨world', state', ?_, confined, valid, value⟩
    simp only [multiZdel, zdelNoLock, eval_recordKeyLock, Program.eval_bind, readMeta, if_neg empty,
      if_neg positive, versionEq, loop, run, Program.pure_eq_done, Program.eval_done]
    congr 3
    omega

theorem eraseAll_byteSet_scores (scores : SortedMap Bytes Double) (removed : List Bytes) :
    scores.eraseAll (byteSet removed).keys = scores.eraseAll removed :=
  SortedMap.eraseAll_congr fun _ _ => mem_keys_byteSet

theorem ZsetView.zrem (view : ZsetView world.db.contents key state scores version)
    {removed : List Bytes} (nonempty : removed ≠ []) :
    Refines (procZrem key.1 removed) world key
      (.int (scores.size - (scores.eraseAll removed).size),
        Value.ofScores (scores.eraseAll removed)) := by
  obtain ⟨world', state', run, confined, valid, value⟩ := view.eval_multiZdel (byteSet removed)
  rw [eraseAll_byteSet_scores] at run value
  refine ⟨world', state', ?_, confined, valid, value⟩
  simp only [procZrem, if_neg nonempty, Program.eval_bind, run, if_neg (nonneg_of_size _),
    Program.pure_eq_done, Program.eval_done]

theorem ZsetView.zcard (view : ZsetView world.db.contents key state scores version) :
    Refines (procZcard key.1) world key (.int scores.size, Value.ofScores scores) := by
  obtain ⟨zv, readMeta, _, lengthEq⟩ := view.eval_getZsetMetaVal
  have length : zv.length.toNat = scores.size := by
    rw [lengthEq, UInt64.toNat_ofNat_of_lt' view.small]
  apply view.refines_self
  by_cases empty : scores.size = 0
  · simp [procZcard, zsize, readMeta, empty]
  · simp [procZcard, zsize, readMeta, empty, length]

theorem ZsetView.zscore (view : ZsetView world.db.contents key state scores version)
    (member : Bytes) :
    Refines (procZscore float key.1 member) world key
      ((match scores.get member with
        | some score => .bulk (float.str score)
        | none => .nil), Value.ofScores scores) := by
  obtain ⟨zv, readMeta, versionEq, _⟩ := view.eval_getZsetMetaVal
  have item := view.stores.eval_getZsetItemVal member
  apply view.refines_self
  by_cases empty : scores.size = 0
  · have missing : scores.get member = none := by
      rw [SortedMap.size_eq_zero.mp empty]
      rfl
    simp [procZscore, zget, readMeta, empty, missing]
  · cases stored : scores.get member with
    | none =>
        rw [stored] at item
        simp [procZscore, zget, readMeta, empty, versionEq, item]
    | some score =>
        rw [stored] at item
        simp [procZscore, zget, readMeta, empty, versionEq, item]

/-- A scan of records named by stored members meets each of them at most once. -/
theorem distinct_of_scan {γ : Type} {decode : Bytes → Option γ} {belongs : γ → Bool}
    {encode : γ → Bytes} (member : γ → Bytes) (raw : Bytes → Bytes)
    (spelled : ∀ {ks item}, decode ks = some item → ks = encode item)
    (own : ∀ item, belongs item → (world.db.get (encode item)).isSome →
      encode item = raw (member item) ∧ (scores.get (member item)).isSome)
    {entries : List (Bytes × Bytes)} (sublist : entries.Sublist world.db.entries) :
    ((Iterator.collect decode belongs entries).map fun record => member record.1).Nodup ∧
      ∀ name ∈ (Iterator.collect decode belongs entries).map fun record => member record.1,
        (scores.get name).isSome := by
  have scanned : ((Iterator.collect decode belongs entries).map fun record =>
      encode record.1).Sublist world.db.keys :=
    (Iterator.collect_sublist spelled entries).trans (sublist.map Prod.fst)
  have known : ∀ record ∈ Iterator.collect decode belongs entries,
      encode record.1 = raw (member record.1) ∧ (scores.get (member record.1)).isSome := by
    intro record mem
    refine own _ (Iterator.belongs_of_mem_collect mem) ?_
    rw [← SortedMap.mem_keys]
    exact scanned.subset (List.mem_map_of_mem mem)
  constructor
  · refine List.Nodup.of_map raw ?_
    have same : ((Iterator.collect decode belongs entries).map fun record => member record.1).map
        raw = (Iterator.collect decode belongs entries).map fun record => encode record.1 := by
      rw [List.map_map]
      exact List.map_congr_left fun record mem => (known record mem).1.symm
    rw [same]
    exact scanned.nodup world.db.keys_nodup
  · intro name named
    obtain ⟨record, mem, rfl⟩ := List.mem_map.mp named
    exact (known record mem).2

theorem ZsetStores.distinct_zitems (stores : ZsetStores world.db.contents key version scores)
    {entries : List (Bytes × Bytes)} (sublist : entries.Sublist world.db.entries) :
    ((ZIterator.items key.1 version entries).map Prod.fst).Nodup ∧
      ∀ member ∈ (ZIterator.items key.1 version entries).map Prod.fst,
        (scores.get member).isSome := by
  rw [ZIterator.items, List.map_map]
  refine distinct_of_scan (fun zk => zk.field)
    (fun member => encodeZscoreKey key.1 member ((scores.get member).getD 0) version)
    (fun decoded => decodeZScoreItemKey_eq_some decoded) ?_ sublist
  intro zk mine found
  obtain ⟨⟨name, version', member⟩, score⟩ := zk
  simp only [ZIterator.belongs, decide_eq_true_eq] at mine
  obtain ⟨rfl, rfl⟩ := mine
  have entry := stores.index score member
  rw [DB.contents, ← encodeZscoreKey_eq_encode] at entry
  split_ifs at entry with held
  · simp [held]
  · rw [entry] at found
    cases found

theorem ZsetStores.distinct_zscanbylex (stores : ZsetStores world.db.contents key version scores)
    (start stop : Bytes) :
    (zscanbylexInternal world.db key.1 start stop version).Nodup ∧
      ∀ member ∈ zscanbylexInternal world.db key.1 start stop version,
        (scores.get member).isSome := by
  refine distinct_of_scan (fun zk => zk.field) (fun member => encodeZsetKey key.1 member version)
    (fun decoded => (decodeItemKeyInternal_eq_some.mp decoded).2) ?_ (iterator_sublist ..)
  intro zk mine found
  obtain ⟨name, version', member⟩ := zk
  simp only [decide_eq_true_eq] at mine
  obtain ⟨rfl, rfl⟩ := mine
  refine ⟨rfl, ?_⟩
  have item := stores.item member
  change world.db.get (encodeZsetKey key.1 member version') = _ at item
  change (world.db.get (encodeZsetKey key.1 member version')).isSome at found
  rw [item, Option.isSome_map] at found
  exact found

/-- A removal by range over distinct stored members deletes those between the tests. -/
theorem ZsetView.eval_zremrange {γ : Type}
    (view : ZsetView world.db.contents key state scores version) {zv : MetaVal}
    (versionEq : zv.version = version) (lengthEq : zv.length = UInt64.ofNat scores.size)
    (live : scores.size ≠ 0) (starts continues : γ → Bool) {member : γ → Bytes} {items : List γ}
    (distinct : (items.map member).Nodup ∧ ∀ name ∈ items.map member, (scores.get name).isSome)
    {removed : List Bytes} (chosen : (between starts continues items).map member = removed) :
    ∃ (batch : WriteBatch) (world' : World) (iret : Int) (state' : Option (UInt16 × Value)),
      (removed.Nodup ∧ ∀ name ∈ removed, (scores.get name).isSome) ∧
      (zremrangeLoop starts continues member true key.1 version items [] 0).eval atomically world =
        (.ok (removed.length, batch), world) ∧
      (commitZset key.1 batch zv (-removed.length)).eval atomically world = (iret, world') ∧
      ¬iret < 0 ∧ Confined key world.db world'.db ∧ KeyValid world'.db.contents key state' ∧
      state'.map Prod.snd = Value.ofScores (scores.eraseAll removed) := by
  have loop := view.stores.eval_zremrangeLoop starts continues member items [] 0
  simp only [List.map_nil, List.nil_append, zero_add, chosen] at loop
  have sublist : removed.Sublist (items.map member) := by
    rw [← chosen]
    exact ((List.takeWhile_sublist _).trans List.filter_sublist).map member
  have stored : ∀ name ∈ removed, (scores.get name).isSome := fun name mem =>
    distinct.2 name (sublist.subset mem)
  have nodup := sublist.nodup distinct.1
  obtain ⟨world', state', run, confined, valid, value⟩ := view.eval_commit_delete versionEq lengthEq
    live nodup (List.countP_eq_length.mpr stored)
  exact ⟨_, world', _, state', ⟨nodup, stored⟩, loop, run, nonneg_of_size _, confined, valid, value⟩

/-- What a removal by range may come to. -/
def RangeRemoval (world : World) (key : UserKey) (scores : SortedMap Bytes Double)
    (command : Command Reply) : Prop :=
  ∃ outcome, ZsetCommand.Removes scores outcome ∧
    Refines command world key (outcome.1, Value.ofScores outcome.2)

theorem ZsetView.removes_nothing (view : ZsetView world.db.contents key state scores version)
    {command : Command Reply} (run : command.eval atomically world = (.int 0, world)) :
    RangeRemoval world key scores command :=
  ⟨(.int 0, scores), ⟨[], List.nodup_nil, by simp, rfl⟩, view.refines_self run⟩

theorem zscanInternal_sublist (float : FloatUnit) (db : DB) (name scoreStart scoreEnd : Bytes)
    (limit : Option Nat) (version : UInt16) :
    (zscanInternal float db name scoreStart scoreEnd limit .forward version).Sublist db.entries :=
  iterator_sublist ..

/-- The members that counting and removing by score run through. -/
def scoreScan (float : FloatUnit) (db : DB) (name : Bytes) (version : UInt16)
    (range : Zrangespec) : List (Bytes × Double) :=
  between (fun item : Bytes × Double => range.gteMin item.2) (fun item => range.lteMax item.2)
    (ZIterator.items name version (zscanInternal float db name
      (float.str (float.sub range.min Double.eps)) (float.str (float.add range.max Double.eps)) none
      .forward version))

/-- Counting by score counts what its scan runs through. -/
theorem ZsetView.eval_zcount (view : ZsetView world.db.contents key state scores version)
    {min max : Bytes} {range : Zrangespec} (parsed : zslParseRange float min max = .ok range) :
    (procZcount float key.1 min max).eval atomically world =
      (.int (if scores.size = 0 then 0
        else (scoreScan float world.db key.1 version range).length), world) := by
  obtain ⟨zv, readMeta, versionEq, lengthEq⟩ := view.eval_getZsetMetaVal
  by_cases empty : scores.size = 0
  · simp [procZcount, procZscoreRange, Vcdb.zremrangebyscore, parsed, readMeta, empty]
  · have positive : ¬((1 : Int) ≤ 0) := by decide
    have nonneg : ¬((1 : Int) < 0) := by decide
    simp only [procZcount, procZscoreRange, Vcdb.zremrangebyscore, parsed, eval_recordKeyLock,
      Program.eval_bind, readMeta, if_neg empty, if_neg positive, versionEq, eval_getSnapshot,
      eval_zremrangeLoop_count, Bool.false_eq_true, if_false, zero_add, if_neg nonneg, scoreScan,
      Program.pure_eq_done, Program.eval_done]

/-- Removing by score removes what its scan runs through. -/
theorem ZsetView.zremrangebyscore_scan
    (view : ZsetView world.db.contents key state scores version) (live : scores.size ≠ 0)
    {min max : Bytes} {range : Zrangespec} (parsed : zslParseRange float min max = .ok range)
    {removed : List Bytes}
    (scanned : (scoreScan float world.db key.1 version range).map Prod.fst = removed) :
    (removed.Nodup ∧ ∀ name ∈ removed, (scores.get name).isSome) ∧
      Refines (procZremrangebyscore float key.1 min max) world key
        (.int removed.length, Value.ofScores (scores.eraseAll removed)) := by
  obtain ⟨zv, readMeta, versionEq, lengthEq⟩ := view.eval_getZsetMetaVal
  have distinct := view.stores.distinct_zitems (zscanInternal_sublist float world.db key.1
    (float.str (float.sub range.min Double.eps)) (float.str (float.add range.max Double.eps)) none
    version)
  rw [scoreScan] at scanned
  obtain ⟨batch, world', iret, state', chosen, loop, run, nonneg, confined, valid, value⟩ :=
    view.eval_zremrange versionEq lengthEq live (fun item : Bytes × Double => range.gteMin item.2)
      (fun item => range.lteMax item.2) distinct scanned
  refine ⟨chosen, world', state', ?_, confined, valid, value⟩
  have positive : ¬((1 : Int) ≤ 0) := by decide
  simp only [procZremrangebyscore, procZscoreRange, Vcdb.zremrangebyscore, parsed,
    eval_recordKeyLock, Program.eval_bind, readMeta, if_neg live, if_neg positive, versionEq,
    eval_getSnapshot, loop, if_true, run, if_neg nonneg, Program.pure_eq_done, Program.eval_done]

theorem ZsetView.eval_zremrangebyscore_empty
    (view : ZsetView world.db.contents key state scores version) (empty : scores.size = 0)
    {min max : Bytes} {range : Zrangespec} (parsed : zslParseRange float min max = .ok range) :
    (procZremrangebyscore float key.1 min max).eval atomically world = (.int 0, world) := by
  obtain ⟨zv, readMeta, versionEq, lengthEq⟩ := view.eval_getZsetMetaVal
  simp [procZremrangebyscore, procZscoreRange, Vcdb.zremrangebyscore, parsed, readMeta, empty]

theorem ZsetView.zremrangebyscore (view : ZsetView world.db.contents key state scores version)
    {min max : Bytes} {range : Zrangespec} (parsed : zslParseRange float min max = .ok range) :
    RangeRemoval world key scores (procZremrangebyscore float key.1 min max) := by
  by_cases empty : scores.size = 0
  · exact view.removes_nothing (view.eval_zremrangebyscore_empty empty parsed)
  · obtain ⟨chosen, refines⟩ := view.zremrangebyscore_scan empty parsed rfl
    exact ⟨_, ⟨_, chosen.1, chosen.2, rfl⟩, refines⟩

/-- Removing by member removes what its scan runs through. -/
theorem ZsetView.zremrangebylex_scan
    (view : ZsetView world.db.contents key state scores version) (live : scores.size ≠ 0)
    {min max : Bytes} {range : Zlexrangespec} (parsed : zslParseLexRange min max = .ok range)
    (proper : range.degenerate min max = false) {removed : List Bytes}
    (scanned : between range.gteMin range.lteMax
      (zscanbylexInternal world.db key.1 range.min range.max version) = removed) :
    (removed.Nodup ∧ ∀ name ∈ removed, (scores.get name).isSome) ∧
      Refines (procZremrangebylex key.1 min max) world key
        (.int removed.length, Value.ofScores (scores.eraseAll removed)) := by
  obtain ⟨zv, readMeta, versionEq, lengthEq⟩ := view.eval_getZsetMetaVal
  have distinct := view.stores.distinct_zscanbylex range.min range.max
  rw [← List.map_id (zscanbylexInternal _ _ _ _ _)] at distinct
  obtain ⟨batch, world', iret, state', chosen, loop, run, nonneg, confined, valid, value⟩ :=
    view.eval_zremrange versionEq lengthEq live range.gteMin range.lteMax distinct
      ((List.map_id _).trans scanned)
  refine ⟨chosen, world', state', ?_, confined, valid, value⟩
  have positive : ¬((1 : Int) ≤ 0) := by decide
  simp only [procZremrangebylex, Vcdb.zremrangebylex, parsed, proper, Bool.false_eq_true, if_false,
    eval_recordKeyLock, Program.eval_bind, readMeta, if_neg live, if_neg positive, versionEq,
    eval_getSnapshot, loop, run, if_neg nonneg, Program.pure_eq_done, Program.eval_done]

theorem ZsetView.zremrangebylex (view : ZsetView world.db.contents key state scores version)
    {min max : Bytes} {range : Zlexrangespec} (parsed : zslParseLexRange min max = .ok range)
    (proper : range.degenerate min max = false) :
    RangeRemoval world key scores (procZremrangebylex key.1 min max) := by
  by_cases empty : scores.size = 0
  · obtain ⟨zv, readMeta, _, _⟩ := view.eval_getZsetMetaVal
    apply view.removes_nothing
    simp [procZremrangebylex, Vcdb.zremrangebylex, parsed, proper, readMeta, empty]
  · obtain ⟨chosen, refines⟩ := view.zremrangebylex_scan empty parsed proper rfl
    exact ⟨_, ⟨_, chosen.1, chosen.2, rfl⟩, refines⟩

/-- A range by rank is read without a change. -/
theorem ZsetView.eval_zrange (view : ZsetView world.db.contents key state scores version)
    (float : FloatUnit) {start stop : Bytes} (first : (string2ll start).isSome)
    (last : (string2ll stop).isSome) :
    ∃ members, (zrange float key.1 start stop false).eval atomically world =
      ((if scores.size = 0 then 0 else 1, members), world) := by
  obtain ⟨zv, readMeta, _, _⟩ := view.eval_getZsetMetaVal
  obtain ⟨first, parsed⟩ := Option.isSome_iff_exists.mp first
  obtain ⟨last, parsed'⟩ := Option.isSome_iff_exists.mp last
  by_cases empty : scores.size = 0
  · exact ⟨[], by simp [zrange, zrangeGeneric, parsed, parsed', zsetSnapshot, readMeta, empty]⟩
  · have positive : ¬((1 : Int) ≤ 0) := by decide
    simp only [zrange, zrangeGeneric, parsed, parsed', zsetSnapshot, eval_recordKeyLock,
      Program.eval_bind, readMeta, if_neg empty, if_neg positive, eval_getSnapshot,
      Program.pure_eq_done, Program.eval_done]
    rw [Program.eval_ite]
    split_ifs <;> exact ⟨_, rfl⟩

theorem ZsetView.zremrangebyrank (view : ZsetView world.db.contents key state scores version)
    {start stop : Bytes} (first : (string2ll start).isSome) (last : (string2ll stop).isSome) :
    RangeRemoval world key scores (procZremrangebyrank float key.1 start stop) := by
  obtain ⟨members, ranged⟩ := view.eval_zrange float first last
  by_cases empty : scores.size = 0
  · apply view.removes_nothing
    simp [procZremrangebyrank, ranged, empty]
  · have size := SortedMap.size_eraseAll (byteSet members).keys_nodup scores
    obtain ⟨world', state', run, confined, valid, value⟩ := view.eval_multiZdel (byteSet members)
    let removed := (byteSet members).keys.filter fun member => (scores.get member).isSome
    have same : scores.eraseAll (byteSet members).keys = scores.eraseAll removed :=
      SortedMap.eraseAll_congr fun member stored => by simp [removed, stored]
    have counted : (scores.size - (scores.eraseAll (byteSet members).keys).size : Int) =
        removed.length := by
      rw [← List.countP_eq_length_filter]
      omega
    refine ⟨(.int removed.length, scores.eraseAll removed),
      ⟨removed, (byteSet members).keys_nodup.filter _, by simp [removed], rfl⟩, world', state', ?_,
      confined, valid, same ▸ value⟩
    have live : (1 : Int) ≠ 0 ∧ ¬((1 : Int) < 0) := by decide
    simp only [procZremrangebyrank, Program.eval_bind, ranged, if_neg empty, if_neg live.2,
      if_neg live.1, run, if_neg (nonneg_of_size _), counted, Program.pure_eq_done,
      Program.eval_done]

/-- ZADD with INCR answers nil when its options forbid the change. -/
theorem eval_procZadd_incr {member val : Bytes} {increment : Double} {world' : World}
    (compatible : ¬(flags.nx ∧ flags.xx)) (incr : flags.incr = true)
    (parsed : float.bytesDouble val = some increment)
    (run : (zincr float key.1 member increment flags).eval atomically world =
      (zsetJudge float flags scores member increment, world')) :
    (procZadd float key.1 flags [(member, val)]).eval atomically world =
      ((ZsetCommand.denoteZincr float flags scores member increment).1, world') := by
  simp only [procZadd, if_neg compatible, incr, if_true, ne_eq, not_true_eq_false, if_false, parsed,
    Program.eval_bind, run, ZsetCommand.denoteZincr]
  cases zsetJudge float flags scores member increment with
  | error code => rfl
  | ok judged =>
      simp only
      split_ifs <;> rfl

/-- ZINCRBY always has a score to answer. -/
theorem eval_procZincrby {member val : Bytes} {increment : Double} {world' : World}
    (parsed : float.bytesDouble val = some increment)
    (run : (zincr float key.1 member increment { incr := true }).eval atomically world =
      (zsetJudge float { incr := true } scores member increment, world')) :
    (procZincrby float key.1 val member).eval atomically world =
      ((ZsetCommand.denoteZincr float { incr := true } scores member increment).1, world') := by
  simp only [procZincrby, parsed, Program.eval_bind, run, ZsetCommand.denoteZincr]
  cases judge : zsetJudge float { incr := true } scores member increment with
  | error code => rfl
  | ok judged =>
      have done : judged.1 ≠ .nop := zsetJudge_ne_nop rfl rfl judge
      simp only [if_neg done]
      rfl

end Commands

namespace ZsetCommand

variable {float : FloatUnit}

/-- What a command may answer and leave, as a refinement of what its key holds. -/
def Refined (float : FloatUnit) (world : World) (key : UserKey) (scores : SortedMap Bytes Double)
    (command : ZsetCommand) : Prop :=
  ∃ outcome, command.Denotes float scores outcome ∧
    Refines (command.run float) world key (outcome.1, Value.ofScores outcome.2)

end ZsetCommand

/-- Every sorted set command that is not refused computes its meaning on the scores. -/
theorem ZsetView.refines {world : World} {key : UserKey} {state : Option (UInt16 × Value)}
    {scores : SortedMap Bytes Double} {version : UInt16} {float : FloatUnit}
    (view : ZsetView world.db.contents key state scores version) {command : ZsetCommand}
    (own : command.key = key.1) (complete : command.argumentReply float = none)
    (small : ∀ outcome, command.Denotes float scores outcome → outcome.2.size < 2 ^ 64) :
    command.Refined float world key scores := by
  cases command with
  | zadd name flags elements =>
      cases own
      cases elements with
      | nil => simp [ZsetCommand.argumentReply] at complete
      | cons element more =>
          obtain ⟨member, val⟩ := element
          simp only [ZsetCommand.argumentReply] at complete
          split at complete
          · cases complete
          · rename_i compatible
            by_cases incr : flags.incr
            · simp only [incr, if_true] at complete
              split at complete
              · cases complete
              · rename_i single
                cases parsed : float.bytesDouble val with
                | none =>
                    rw [parsed] at complete
                    cases complete
                | some increment =>
                    have alone : more = [] := not_not.mp single
                    subst alone
                    have denotes : (ZsetCommand.zadd key.1 flags [(member, val)]).Denotes float scores
                        (ZsetCommand.denoteZincr float flags scores member increment) := by
                      simp [ZsetCommand.Denotes, incr, parsed]
                    obtain ⟨world', state', run, confined, valid, value⟩ :=
                      view.eval_zincr member increment (small _ denotes)
                    exact ⟨_, denotes, world', state', eval_procZadd_incr compatible incr parsed run,
                      confined, valid, value⟩
            · have denotes : (ZsetCommand.zadd key.1 flags ((member, val) :: more)).Denotes float
                  scores (ZsetCommand.denoteZadd float flags scores ((member, val) :: more)) := by
                simp [ZsetCommand.Denotes, incr]
              exact ⟨_, denotes, view.zadd (by simp) compatible (by simpa using incr)
                (small _ denotes)⟩
  | zincrby name val member =>
      cases own
      cases parsed : float.bytesDouble val with
      | none => simp [ZsetCommand.argumentReply, parsed] at complete
      | some increment =>
          have denotes : (ZsetCommand.zincrby key.1 val member).Denotes float scores
              (ZsetCommand.denoteZincr float { incr := true } scores member increment) := by
            simp [ZsetCommand.Denotes, parsed]
          obtain ⟨world', state', run, confined, valid, value⟩ :=
            view.eval_zincr member increment (small _ denotes)
          exact ⟨_, denotes, world', state', eval_procZincrby parsed run, confined, valid, value⟩
  | zrem name removed =>
      cases own
      exact ⟨_, rfl, view.zrem (by rintro rfl; simp [ZsetCommand.argumentReply] at complete)⟩
  | zscore name member =>
      cases own
      exact ⟨_, rfl, view.zscore member⟩
  | zcard name =>
      cases own
      exact ⟨_, rfl, view.zcard⟩
  | zremrangebyscore name min max =>
      cases own
      cases parsed : zslParseRange float min max with
      | error code => simp [ZsetCommand.argumentReply, parsed] at complete
      | ok range => exact view.zremrangebyscore parsed
  | zremrangebyrank name start stop =>
      cases own
      cases first : string2ll start with
      | none => simp [ZsetCommand.argumentReply, first] at complete
      | some m =>
          cases last : string2ll stop with
          | none => simp [ZsetCommand.argumentReply, first, last] at complete
          | some n => exact view.zremrangebyrank (by simp [first]) (by simp [last])
  | zremrangebylex name min max =>
      cases own
      cases parsed : zslParseLexRange min max with
      | error fault => cases fault <;> simp [ZsetCommand.argumentReply, parsed] at complete
      | ok range =>
          cases proper : range.degenerate min max with
          | true => simp [ZsetCommand.argumentReply, parsed, proper] at complete
          | false => exact view.zremrangebylex parsed proper

namespace ZsetCommand

variable {float : FloatUnit}

theorem zslParseBound_error {text : Bytes} {nanCode code : Int} (negative : nanCode < 0)
    (refused : zslParseBound float text nanCode = .error code) : code < 0 := by
  have invalid : invalidMinMaxDbl < 0 := by decide
  simp only [zslParseBound] at refused
  split_ifs at refused <;> cases refused <;> first | exact negative | exact invalid

theorem zslParseRange_error {min max : Bytes} {code : Int}
    (refused : zslParseRange float min max = .error code) : code < 0 := by
  rw [zslParseRange] at refused
  cases lower : zslParseBound float min nanScore with
  | error code' =>
      rw [lower] at refused
      cases refused
      exact zslParseBound_error (by decide) lower
  | ok first =>
      cases upper : zslParseBound float max invalidMinMaxDbl with
      | error code' =>
          rw [lower, upper] at refused
          cases refused
          exact zslParseBound_error (by decide) upper
      | ok second =>
          rw [lower, upper] at refused
          cases refused

/-- A request refused for its arguments does not touch the store. -/
theorem eval_incomplete {world : World} {command : ZsetCommand} {reply : Reply}
    (incomplete : command.argumentReply float = some reply) :
    (command.run float).eval atomically world = (reply, world) := by
  cases command with
  | zadd name flags elements =>
      cases elements with
      | nil =>
          cases incomplete
          rfl
      | cons element more =>
          obtain ⟨member, val⟩ := element
          simp only [argumentReply] at incomplete
          rw [run, procZadd]
          split at incomplete
          · rename_i clash
            cases incomplete
            rw [if_pos clash]
            rfl
          · rename_i compatible
            rw [if_neg compatible]
            split at incomplete
            · rename_i incr
              rw [if_pos incr]
              split at incomplete
              · rename_i several
                cases incomplete
                rw [if_pos several]
                rfl
              · rename_i single
                rw [if_neg single]
                cases parsed : float.bytesDouble val with
                | none =>
                    rw [parsed] at incomplete
                    cases incomplete
                    rfl
                | some score =>
                    rw [parsed] at incomplete
                    cases incomplete
            · cases incomplete
  | zincrby name val member =>
      simp only [argumentReply] at incomplete
      rw [run, procZincrby]
      cases parsed : float.bytesDouble val with
      | none =>
          rw [parsed] at incomplete
          cases incomplete
          rfl
      | some score =>
          rw [parsed] at incomplete
          cases incomplete
  | zrem name removed =>
      cases removed with
      | nil =>
          cases incomplete
          rfl
      | cons member removed => cases incomplete
  | zscore name member => cases incomplete
  | zcard name => cases incomplete
  | zremrangebyscore name min max =>
      cases parsed : zslParseRange float min max with
      | error code =>
          simp only [argumentReply, parsed] at incomplete
          cases incomplete
          have negative := zslParseRange_error parsed
          simp [run, procZremrangebyscore, procZscoreRange, Vcdb.zremrangebyscore, parsed, negative]
      | ok range => simp [argumentReply, parsed] at incomplete
  | zremrangebyrank name start stop =>
      have negative : invalidInt < 0 := by decide
      cases first : string2ll start with
      | none =>
          simp only [argumentReply, first] at incomplete
          cases incomplete
          simp [run, procZremrangebyrank, zrange, zrangeGeneric, first, negative]
      | some m =>
          cases last : string2ll stop with
          | none =>
              simp only [argumentReply, first, last] at incomplete
              cases incomplete
              simp [run, procZremrangebyrank, zrange, zrangeGeneric, first, last, negative]
          | some n => simp [argumentReply, first, last] at incomplete
  | zremrangebylex name min max =>
      have negative : syntaxErr < 0 := by decide
      cases parsed : zslParseLexRange min max with
      | error fault =>
          cases fault with
          | lengthError =>
              simp only [argumentReply, parsed] at incomplete
              cases incomplete
              simp [run, procZremrangebylex, Vcdb.zremrangebylex, parsed]
          | invalid =>
              simp only [argumentReply, parsed] at incomplete
              cases incomplete
              simp [run, procZremrangebylex, Vcdb.zremrangebylex, parsed, negative]
      | ok range =>
          cases proper : range.degenerate min max with
          | true =>
              simp only [argumentReply, parsed, proper, if_true] at incomplete
              cases incomplete
              simp [run, procZremrangebylex, Vcdb.zremrangebylex, parsed, proper]
          | false => simp [argumentReply, parsed, proper] at incomplete

/-- On a key of another type every sorted set command reports the error and does nothing. -/
theorem eval_wrongType {world : World} {key : UserKey} {version : UInt16} {value : Value}
    (live : world.db.contents.LiveAs key version value) (other : value.type ≠ DataType.zsize)
    {command : ZsetCommand} (own : command.key = key.1)
    (complete : command.argumentReply float = none) :
    (command.run float).eval atomically world = (.error wrongTypeErr, world) := by
  obtain ⟨mv, readMeta⟩ := eval_getMetaVal_wrongType DataType.zsize live other
  have negative : wrongTypeErr < 0 := by decide
  have notPositive : wrongTypeErr ≤ 0 := by decide
  have notOne : wrongTypeErr ≠ 1 := by decide
  cases command <;> cases own
  case zadd flags elements =>
    cases elements with
    | nil => simp [argumentReply] at complete
    | cons element more =>
        obtain ⟨member, val⟩ := element
        simp only [argumentReply] at complete
        split at complete
        · cases complete
        · rename_i compatible
          cases incr : flags.incr with
          | false =>
              simp [run, procZadd, compatible, incr, multiZset, zsetNoLock, getZsetMetaVal,
                readMeta, negative]
          | true =>
              simp only [incr, if_true] at complete
              split at complete
              · cases complete
              · rename_i single
                cases parsed : float.bytesDouble val with
                | none => simp [parsed] at complete
                | some score =>
                    simp [run, procZadd, compatible, incr, not_not.mp single, parsed, zincr,
                      getZsetMetaVal, readMeta, negative]
  case zincrby val member =>
    cases parsed : float.bytesDouble val with
    | none => simp [argumentReply, parsed] at complete
    | some score => simp [run, procZincrby, parsed, zincr, getZsetMetaVal, readMeta, negative]
  case zrem removed =>
    cases removed with
    | nil => simp [argumentReply] at complete
    | cons member removed =>
        simp [run, procZrem, multiZdel, zdelNoLock, getZsetMetaVal, readMeta, negative, notPositive]
  case zremrangebyscore min max =>
    cases parsed : zslParseRange float min max with
    | error code => simp [argumentReply, parsed] at complete
    | ok range =>
        simp [run, procZremrangebyscore, procZscoreRange, Vcdb.zremrangebyscore, parsed,
          getZsetMetaVal, readMeta, negative, notPositive]
  case zremrangebyrank start stop =>
    cases first : string2ll start with
    | none => simp [argumentReply, first] at complete
    | some m =>
        cases last : string2ll stop with
        | none => simp [argumentReply, first, last] at complete
        | some n =>
            simp [run, procZremrangebyrank, zrange, zrangeGeneric, first, last, zsetSnapshot,
              getZsetMetaVal, readMeta, negative, notPositive]
  case zremrangebylex min max =>
    cases parsed : zslParseLexRange min max with
    | error fault => cases fault <;> simp [argumentReply, parsed] at complete
    | ok range =>
        cases proper : range.degenerate min max with
        | true => simp [argumentReply, parsed, proper] at complete
        | false =>
            simp [run, procZremrangebylex, Vcdb.zremrangebylex, parsed, proper, getZsetMetaVal,
              readMeta, negative, notPositive]
  all_goals simp [run, procZscore, procZcard, zget, zsize, getZsetMetaVal, readMeta, negative,
    notPositive, notOne]

/-- On a missing key the elements are judged without a look at the store. -/
theorem eval_zaddIdle {world : World} {key : UserKey} {flags : ZaddFlags}
    (valid : KeyValid world.db.contents key none) {elements : List (Bytes × Bytes)}
    (nonempty : elements ≠ []) (compatible : ¬(flags.nx ∧ flags.xx)) (plain : flags.incr = false)
    (creates : (denoteZadd float flags ∅ elements).2.size = 0) :
    (procZadd float key.1 flags elements).eval atomically world =
      ((denoteZadd float flags ∅ elements).1, world) := by
  obtain ⟨zv, readMeta, versionEq, lengthEq⟩ :=
    eval_getMetaVal_idle DataType.zsize DataType.zsize valid
  have loop : (zsetLoop float false key.1 zv.version flags (scoreMap flags.nx elements).entries
      ([].map Update.encode) 0 0).eval atomically world =
        (((scoreMap flags.nx elements).entries.mapM (zaddJudge float flags ∅)).map fun judged =>
          (0 + (countResult .added judged : Int), 0 + (countResult .updated judged : Int),
            ([] ++ judgedUpdates key zv.version ∅ judged).map Update.encode), world) :=
    eval_zsetLoop float flags (by simp) (fun _ => rfl) _ _ _ _
  simp only [List.map_nil, List.nil_append, zero_add] at loop
  obtain ⟨element, more, rfl⟩ := List.exists_cons_of_ne_nil nonempty
  unfold denoteZadd at creates ⊢
  have unchecked : decide ((0 : Int) ≠ 0) = false := by decide
  cases judges : (scoreMap flags.nx (element :: more)).entries.mapM (zaddJudge float flags ∅) with
  | error code =>
      rw [judges] at loop
      simp only [procZadd, if_neg compatible, plain, Bool.false_eq_true, if_false, multiZset,
        zsetNoLock, false_and, eval_recordKeyLock, Program.eval_bind, getZsetMetaVal, readMeta,
        lt_irrefl, unchecked, loop, Except.map, Program.pure_eq_done, Program.eval_done,
        if_pos (mapM_zaddJudge_error judges)]
  | ok judged =>
      rw [judges] at loop creates
      obtain ⟨sublist, added, total⟩ := judged_sublist judges
      have distinct : ((judged.filterMap judgedChange).map Prod.fst).Nodup :=
        sublist.nodup (SortedMap.keys_nodup _)
      have nothing := changed_eq_nil distinct creates
      rw [nothing, List.length_nil] at total
      have noneAdded : countResult .added judged = 0 := by omega
      have noneUpdated : countResult .updated judged = 0 := by omega
      have noUpdates : judgedUpdates key zv.version ∅ judged = [] := by
        rw [judgedUpdates, nothing]
        rfl
      simp only [noneAdded, noneUpdated, noUpdates, Except.map, List.map_nil] at loop
      simp only [procZadd, if_neg compatible, plain, Bool.false_eq_true, if_false, multiZset,
        zsetNoLock, false_and, eval_recordKeyLock, Program.eval_bind, getZsetMetaVal, readMeta,
        lt_irrefl, unchecked, loop, Nat.cast_zero, eval_commitZset_nothing lengthEq, add_zero,
        gt_iff_lt, ite_self, Program.pure_eq_done, Program.eval_done, nothing]
      cases flags.ch <;> rfl

/-- On a missing key an increment that creates nothing is refused or forbidden. -/
theorem eval_zincrIdle {world : World} {key : UserKey} {flags : ZaddFlags}
    (valid : KeyValid world.db.contents key none) (member : Bytes) (increment : Double)
    (creates : (denoteZincr float flags ∅ member increment).2.size = 0) :
    (zincr float key.1 member increment flags).eval atomically world =
      (zsetJudge float flags ∅ member increment, world) := by
  obtain ⟨zv, readMeta, versionEq, lengthEq⟩ :=
    eval_getMetaVal_idle DataType.zsize DataType.zsize valid
  have write : (zsetOne float ([].map Update.encode) false key.1 member increment zv.version
      flags).eval atomically world =
        ((zsetJudge float flags ∅ member increment).map fun judged => (judged.1,
          ([] ++ judgedUpdates key zv.version ∅ [(member, judged)]).map Update.encode, judged.2),
            world) :=
    eval_zsetOne float flags (by simp) (fun _ => rfl) _ _ _
  simp only [List.map_nil, List.nil_append] at write
  have unchecked : decide ((0 : Int) ≠ 0) = false := by decide
  unfold denoteZincr at creates
  cases judge : zsetJudge float flags ∅ member increment with
  | error code =>
      rw [judge] at write
      simp only [zincr, eval_recordKeyLock, Program.eval_bind, getZsetMetaVal, readMeta, lt_irrefl,
        if_false, unchecked, write, Except.map, Program.pure_eq_done, Program.eval_done]
  | ok judged =>
      obtain ⟨result, newVal⟩ := judged
      rw [judge] at write creates
      have nothing : judgedChange (member, result, newVal) = none := by
        cases change : judgedChange (member, result, newVal) with
        | none => rfl
        | some c =>
            simp only [change] at creates
            have distinct : ([c].map Prod.fst).Nodup := List.nodup_singleton _
            exact absurd (changed_eq_nil distinct creates) (by simp)
      have notAdded : result ≠ .added := by
        rintro rfl
        rcases zsetJudge_cases judge with ⟨new, same, _⟩ | ⟨new, same, _⟩ | ⟨_, other, _⟩
        · cases same
          cases nothing
        · cases same
        · exact other rfl
      have noUpdates : judgedUpdates key zv.version ∅ [(member, result, newVal)] = [] := by
        rw [judgedUpdates, List.filterMap_cons_none nothing]
        rfl
      simp only [zincr, eval_recordKeyLock, Program.eval_bind, getZsetMetaVal, readMeta, lt_irrefl,
        if_false, unchecked, write, Except.map, if_neg notAdded, noUpdates, List.map_nil,
        eval_commitBatch, apply_nil_batch, if_true, Program.pure_eq_done, Program.eval_done]

/-- On a missing key a command that creates nothing answers as on the empty map. -/
theorem eval_idle {world : World} {key : UserKey} (valid : KeyValid world.db.contents key none)
    {command : ZsetCommand} (own : command.key = key.1)
    (complete : command.argumentReply float = none)
    (creates : ∀ outcome, command.Denotes float ∅ outcome → outcome.2.size = 0) :
    ∃ outcome, command.Denotes float ∅ outcome ∧
      (command.run float).eval atomically world = (outcome.1, world) := by
  obtain ⟨zv, readMeta, versionEq, lengthEq⟩ :=
    eval_getMetaVal_idle DataType.zsize DataType.zsize valid
  have noneRemoved : Removes ∅ (.int 0, ∅) := ⟨[], List.nodup_nil, by simp, rfl⟩
  cases command <;> cases own
  case zadd flags elements =>
    cases elements with
    | nil => simp [argumentReply] at complete
    | cons element more =>
        obtain ⟨member, val⟩ := element
        simp only [argumentReply] at complete
        split at complete
        · cases complete
        · rename_i compatible
          cases incr : flags.incr with
          | false =>
              have denotes : (ZsetCommand.zadd key.1 flags ((member, val) :: more)).Denotes float ∅
                  (denoteZadd float flags ∅ ((member, val) :: more)) := by
                simp [Denotes, incr]
              exact ⟨_, denotes, eval_zaddIdle valid (by simp) compatible incr (creates _ denotes)⟩
          | true =>
              simp only [incr, if_true] at complete
              split at complete
              · cases complete
              · rename_i single
                have alone : more = [] := not_not.mp single
                subst alone
                cases parsed : float.bytesDouble val with
                | none => simp [parsed] at complete
                | some increment =>
                    have denotes : (ZsetCommand.zadd key.1 flags [(member, val)]).Denotes float ∅
                        (denoteZincr float flags ∅ member increment) := by
                      simp [Denotes, incr, parsed]
                    exact ⟨_, denotes, eval_procZadd_incr compatible incr parsed
                      (eval_zincrIdle valid member increment (creates _ denotes))⟩
  case zincrby val member =>
    cases parsed : float.bytesDouble val with
    | none => simp [argumentReply, parsed] at complete
    | some increment =>
        have denotes : (ZsetCommand.zincrby key.1 val member).Denotes float ∅
            (denoteZincr float { incr := true } ∅ member increment) := by
          simp [Denotes, parsed]
        exact ⟨_, denotes,
          eval_procZincrby parsed (eval_zincrIdle valid member increment (creates _ denotes))⟩
  case zrem removed =>
    cases removed with
    | nil => simp [argumentReply] at complete
    | cons member removed =>
        have erased : (∅ : SortedMap Bytes Double).eraseAll (member :: removed) = ∅ := by
          ext name : 1
          simp [SortedMap.get_eraseAll]
        refine ⟨(.int 0, ∅), ?_, ?_⟩
        · simp [Denotes, erased]
        · simp [run, procZrem, multiZdel, zdelNoLock, getZsetMetaVal, readMeta]
  case zscore member =>
    exact ⟨_, rfl, by simp [run, procZscore, zget, getZsetMetaVal, readMeta]⟩
  case zcard =>
    exact ⟨_, rfl, by simp [run, procZcard, zsize, getZsetMetaVal, readMeta, SortedMap.size]⟩
  case zremrangebyscore min max =>
    cases parsed : zslParseRange float min max with
    | error code => simp [argumentReply, parsed] at complete
    | ok range =>
        exact ⟨_, noneRemoved, by simp [run, procZremrangebyscore, procZscoreRange,
          Vcdb.zremrangebyscore, parsed, getZsetMetaVal, readMeta]⟩
  case zremrangebyrank start stop =>
    cases first : string2ll start with
    | none => simp [argumentReply, first] at complete
    | some m =>
        cases last : string2ll stop with
        | none => simp [argumentReply, first, last] at complete
        | some n =>
            exact ⟨_, noneRemoved, by simp [run, procZremrangebyrank, zrange, zrangeGeneric, first,
              last, zsetSnapshot, getZsetMetaVal, readMeta]⟩
  case zremrangebylex min max =>
    cases parsed : zslParseLexRange min max with
    | error fault => cases fault <;> simp [argumentReply, parsed] at complete
    | ok range =>
        cases proper : range.degenerate min max with
        | true => simp [argumentReply, parsed, proper] at complete
        | false =>
            exact ⟨_, noneRemoved, by simp [run, procZremrangebylex, Vcdb.zremrangebylex, parsed,
              proper, getZsetMetaVal, readMeta]⟩

/-- A sorted set command answers and changes its key as it may on the value the key holds. -/
theorem refines {world : World} {key : UserKey} {state : Option (UInt16 × Value)}
    (valid : KeyValid world.db.contents key state) {command : ZsetCommand}
    (own : command.key = key.1)
    (fresh : state = none → (∃ outcome, command.Responds float none outcome ∧ outcome.2 ≠ none) →
      world.db.contents.Fresh key)
    (small : ∀ reply scores,
      command.Responds float (state.map Prod.snd) (reply, some (.zset scores)) →
        scores.size < 2 ^ 64) :
    ∃ outcome, command.Responds float (state.map Prod.snd) outcome ∧
      Refines (command.run float) world key outcome := by
  have stays : ∀ {reply}, (command.run float).eval atomically world = (reply, world) →
      Refines (command.run float) world key (reply, state.map Prod.snd) := Refines.of_eval valid
  unfold Responds at small fresh ⊢
  cases complete : command.argumentReply float with
  | some reply => exact ⟨_, rfl, stays (eval_incomplete complete)⟩
  | none =>
      rw [complete] at small fresh
      have bounded : ∀ after : SortedMap Bytes Double,
          (∀ scores, Value.ofScores after = some (.zset scores) → scores.size < 2 ^ 64) →
          after.size < 2 ^ 64 := by
        intro after bound
        by_cases zero : after.size = 0
        · omega
        · exact bound after (by rw [Value.ofScores, if_neg zero])
      cases state with
      | none =>
          by_cases creates : ∀ outcome, command.Denotes float ∅ outcome → outcome.2.size = 0
          · obtain ⟨⟨reply, after⟩, denotes, run⟩ := eval_idle valid own complete creates
            refine ⟨(reply, none), ⟨after, denotes, ?_⟩, stays run⟩
            rw [Value.ofScores, if_pos (creates _ denotes)]
          · push Not at creates
            obtain ⟨⟨reply, after⟩, denotes, nonempty⟩ := creates
            have created : Value.ofScores after ≠ none := by
              rw [Value.ofScores, if_neg nonempty]
              simp
            have view := ZsetView.ofIdle valid (fresh rfl ⟨(reply, Value.ofScores after),
              ⟨after, denotes, rfl⟩, created⟩)
            obtain ⟨⟨reply, after⟩, denotes, refines⟩ := view.refines own complete
              (fun outcome denotes => bounded outcome.2 fun scores held =>
                small outcome.1 scores ⟨outcome.2, denotes, held.symm⟩)
            exact ⟨(reply, Value.ofScores after), ⟨after, denotes, rfl⟩, refines⟩
      | some live =>
          obtain ⟨version, value⟩ := live
          cases value with
          | zset scores =>
              obtain ⟨⟨reply, after⟩, denotes, refines⟩ := (ZsetView.ofLive valid).refines own
                complete
                (fun outcome denotes => bounded outcome.2 fun scores held =>
                  small outcome.1 scores ⟨outcome.2, denotes, held.symm⟩)
              exact ⟨(reply, Value.ofScores after), ⟨after, denotes, rfl⟩, refines⟩
          | string val =>
              exact ⟨_, rfl, stays (eval_wrongType valid.represented
                (show DataType.kv ≠ DataType.zsize by decide) own complete)⟩
          | hash fields =>
              exact ⟨_, rfl, stays (eval_wrongType valid.represented
                (show DataType.hsize ≠ DataType.zsize by decide) own complete)⟩
          | set members =>
              exact ⟨_, rfl, stays (eval_wrongType valid.represented
                (show DataType.ssize ≠ DataType.zsize by decide) own complete)⟩
          | list cells =>
              exact ⟨_, rfl, stays (eval_wrongType valid.represented
                (show DataType.lsize ≠ DataType.zsize by decide) own complete)⟩

end ZsetCommand

end Vcdb
