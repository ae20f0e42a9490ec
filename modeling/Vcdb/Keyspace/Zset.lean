import Vcdb.Keyspace.Collection
import Vcdb.Proc.Zset

/-!
# Sorted set commands refine a finite map

The meaning of the sorted set commands on a finite map from members to scores, and the proof that
every command computes it from the stored records.  Which members a removal by range selects is
left open here.
-/

namespace Vcdb

/-- A sorted set exists exactly when it has a member. -/
def Value.ofScores (scores : SortedMap Bytes Double) : Option Value :=
  if scores.size = 0 then none else some (.zset scores)

theorem Value.ofScores_eq_none {scores : SortedMap Bytes Double} :
    Value.ofScores scores = none ↔ scores = ∅ := by
  rw [Value.ofScores]
  split_ifs with empty
  · exact iff_of_true rfl (SortedMap.size_eq_zero.mp empty)
  · exact iff_of_false (by simp) fun same => empty (SortedMap.size_eq_zero.mpr same)

theorem Value.ofScores_eq_some {scores : SortedMap Bytes Double} {value : Value} :
    Value.ofScores scores = some value ↔ scores.size ≠ 0 ∧ value = .zset scores := by
  rw [Value.ofScores]
  split_ifs with empty
  · exact iff_of_false (by simp) fun both => both.1 empty
  · rw [Option.some_inj, eq_comm]
    exact ⟨fun same => ⟨empty, same⟩, fun both => both.2⟩

/-- What is done to one member with a score, and the new score where there is one. -/
def zsetJudge (float : FloatUnit) (flags : ZaddFlags) (scores : SortedMap Bytes Double)
    (member : Bytes) (score : Double) : Except Int (ZaddResult × Option Double) :=
  if score.isNan then .error nanScore
  else
    match scores.get member with
    | none => if flags.xx then .ok (.nop, none) else .ok (.added, some score)
    | some old =>
        if flags.nx then .ok (.nop, none)
        else
          let score := if flags.incr then float.add score old else score
          if flags.incr ∧ score.isNan then .error nanScore
          else if old.eq score then .ok (.same, if flags.incr then some score else none)
          else .ok (.updated, some score)

/-- What is done to one element of ZADD. -/
def zaddJudge (float : FloatUnit) (flags : ZaddFlags) (scores : SortedMap Bytes Double)
    (element : Bytes × Bytes) : Except Int (Bytes × ZaddResult × Option Double) :=
  match float.bytesDouble element.2 with
  | none => .error invalidDbl
  | some score => (zsetJudge float flags scores element.1 score).map (element.1, ·)

/-- The score an element is given, when it is added or updated. -/
def judgedChange : Bytes × ZaddResult × Option Double → Option (Bytes × Double)
  | (member, .added, some score) | (member, .updated, some score) => some (member, score)
  | _ => none

namespace ZsetCommand

variable (float : FloatUnit)

/-- Reply to a request that is answered without a look at the key. -/
def argumentReply : ZsetCommand → Option Reply
  | zadd _ flags elements =>
      match elements with
      | [] => some (.error syntaxErr)
      | (_, val) :: more =>
          if flags.nx ∧ flags.xx then
            some (.errorInfo "ERR XX and NX options at the same time are not compatible")
          else if flags.incr then
            if more ≠ [] then
              some (.errorInfo "ERR INCR option supports a single increment-element pair")
            else
              match float.bytesDouble val with
              | none => some (.error invalidDbl)
              | some _ => none
          else none
  | zincrby _ increment _ =>
      match float.bytesDouble increment with
      | none => some (.error invalidDbl)
      | some _ => none
  | zrem _ [] => some .wrongNumberOfArguments
  | zremrangebyscore _ min max =>
      match zslParseRange float min max with
      | .error code => some (.error code)
      | .ok _ => none
  | zremrangebyrank _ start stop =>
      match string2ll start, string2ll stop with
      | some _, some _ => none
      | _, _ => some (.error invalidInt)
  | zremrangebylex _ min max =>
      match zslParseLexRange min max with
      | .error .lengthError => some .terminated
      | .error .invalid => some (.error syntaxErr)
      | .ok range => if range.degenerate min max then some (.int 0) else none
  | _ => none

/-- Reply and new scores of ZADD: a member counts once, and a number that is equal to the stored one
is not a new score. -/
def denoteZadd (flags : ZaddFlags) (scores : SortedMap Bytes Double)
    (elements : List (Bytes × Bytes)) : Reply × SortedMap Bytes Double :=
  match (scoreMap flags.nx elements).entries.mapM (zaddJudge float flags scores) with
  | .error code => (.error code, scores)
  | .ok judged =>
      let changed := judged.filterMap judgedChange
      let after := scores.putAll changed
      (.int (if flags.ch then changed.length else after.size - scores.size), after)

/-- Reply and new scores of an increment. -/
def denoteZincr (flags : ZaddFlags) (scores : SortedMap Bytes Double) (member : Bytes)
    (increment : Double) : Reply × SortedMap Bytes Double :=
  match zsetJudge float flags scores member increment with
  | .error code => (.error code, scores)
  | .ok (result, newVal) =>
      (if result = .nop then .nil else .bulk (float.str (newVal.getD 0)),
        scores.putAll (judgedChange (member, result, newVal)).toList)

/-- Removal of stored members, whichever they are. -/
def Removes (scores : SortedMap Bytes Double) (outcome : Reply × SortedMap Bytes Double) : Prop :=
  ∃ removed : List Bytes, removed.Nodup ∧ (∀ member ∈ removed, (scores.get member).isSome) ∧
    outcome = (.int removed.length, scores.eraseAll removed)

/-- What a command may answer and leave, on a finite map from members to scores. -/
def Denotes (scores : SortedMap Bytes Double) (command : ZsetCommand)
    (outcome : Reply × SortedMap Bytes Double) : Prop :=
  match command with
  | zadd _ flags elements =>
      outcome =
        if flags.incr then
          match elements with
          | (member, val) :: _ =>
              denoteZincr float flags scores member ((float.bytesDouble val).getD 0)
          | [] => (.error syntaxErr, scores)
        else denoteZadd float flags scores elements
  | zincrby _ increment member =>
      outcome = denoteZincr float { incr := true } scores member
        ((float.bytesDouble increment).getD 0)
  | zrem _ members =>
      outcome = (.int (scores.size - (scores.eraseAll members).size), scores.eraseAll members)
  | zscore _ member =>
      outcome = (match scores.get member with
        | some score => .bulk (float.str score)
        | none => .nil, scores)
  | zcard _ => outcome = (.int scores.size, scores)
  | zremrangebyscore _ _ _ | zremrangebyrank _ _ _ | zremrangebylex _ _ _ =>
      Removes scores outcome

/-- What a sorted set command may answer and leave, given what its key holds. -/
def Responds (value : Option Value) (command : ZsetCommand) (outcome : Reply × Option Value) :
    Prop :=
  match command.argumentReply float with
  | some reply => outcome = (reply, value)
  | none =>
      match value with
      | none => ∃ after, command.Denotes float ∅ (outcome.1, after) ∧
          outcome.2 = Value.ofScores after
      | some (.zset scores) => ∃ after, command.Denotes float scores (outcome.1, after) ∧
          outcome.2 = Value.ofScores after
      | some _ => outcome = (.error wrongTypeErr, value)

end ZsetCommand

/-- The items and the index of one version are those of the scores. -/
structure ZsetStores (contents : Contents) (key : UserKey) (version : UInt16)
    (scores : SortedMap Bytes Double) : Prop where
  item : ∀ member, contents (.item key version member) = (scores.get member).map hostOrder64
  index : ∀ score member, contents (.zscore key version score member) =
    if scores.get member = some score then some [] else none

/-- What a sorted set command finds: an absent sorted set counts as empty at the version it would
be created with. -/
structure ZsetView (contents : Contents) (key : UserKey) (state : Option (UInt16 × Value))
    (scores : SortedMap Bytes Double) (version : UInt16) : Prop where
  valid : KeyValid contents key state
  value : state.map Prod.snd = Value.ofScores scores
  length : LengthOf contents key state DataType.zsize version scores.size
  stores : ZsetStores contents key version scores
  small : scores.size < 2 ^ 64

section View

variable {contents : Contents} {key : UserKey} {version : UInt16}
  {scores : SortedMap Bytes Double}

theorem ZsetView.ofIdle (valid : KeyValid contents key none) (fresh : contents.Fresh key) :
    ZsetView contents key none ∅ (contents.createVersion key) := by
  have clean := valid.clean_of_fresh fresh
  exact
    { valid, value := rfl, length := ⟨rfl, rfl, fresh⟩
      stores := ⟨clean.1, fun score member => (clean.2 score member).trans (by simp)⟩
      small := by simp [SortedMap.size] }

theorem ZsetView.ofLive (valid : KeyValid contents key (some (version, .zset scores))) :
    ZsetView contents key (some (version, .zset scores)) scores version := by
  obtain ⟨positive, small, metadata, item, index⟩ := valid.represented
  exact
    { valid, value := by simp [Value.ofScores, positive.ne'], length := ⟨rfl, positive, metadata⟩
      stores := ⟨item, index⟩, small }

/-- The updates that give a member a score. -/
def putScore (key : UserKey) (version : UInt16) (old : Option Double) (member : Bytes)
    (score : Double) : List Update :=
  (old.map fun old => ⟨.zscore key version old member, none⟩).toList ++
    [⟨.item key version member, some (hostOrder64 score)⟩,
      ⟨.zscore key version score member, some []⟩]

/-- The updates that remove a member. -/
def deleteScore (key : UserKey) (version : UInt16) (old : Option Double) (member : Bytes) :
    List Update :=
  (old.map fun old =>
    [⟨.zscore key version old member, none⟩, ⟨.item key version member, none⟩]).getD []

/-- A member's item and entry follow its new score; the entry of the old one goes. -/
theorem ZsetStores.put (stores : ZsetStores contents key version scores) (member : Bytes)
    (score : Double) :
    ZsetStores (contents.applyAll (putScore key version (scores.get member) member score)) key
      version (scores.put member score) := by
  constructor
  · intro other
    rw [SortedMap.get_put, putScore, Contents.applyAll_append]
    by_cases same : other = member
    · subst same
      simp
    · rw [if_neg same, Contents.applyAll_of_notMem, Contents.applyAll_of_notMem, stores.item]
      · intro update mem
        obtain ⟨old, _, rfl⟩ := Option.mem_map.mp (Option.mem_toList.mp mem)
        simp
      · simp [Ne.symm same]
  · intro other name
    rw [SortedMap.get_put, putScore, Contents.applyAll_append]
    by_cases same : name = member
    · subst same
      rw [if_pos rfl]
      by_cases new : score = other
      · subst new
        simp
      · rw [if_neg (by simpa using new)]
        simp only [Contents.applyAll_cons, Contents.applyAll_nil]
        rw [Function.update_of_ne (by simp [Ne.symm new]), Function.update_of_ne (by simp)]
        cases stored : scores.get name with
        | none => simpa [stored] using stores.index other name
        | some old =>
            simp only [Option.map_some, Option.toList_some, Contents.applyAll_cons,
              Contents.applyAll_nil, Function.update_apply, stores.index, stored,
              RecordKey.zscore.injEq, true_and, and_true, Option.some_inj]
            split_ifs with gone <;> simp_all
    · rw [if_neg same, Contents.applyAll_of_notMem, Contents.applyAll_of_notMem, stores.index]
      · intro update mem
        obtain ⟨old, _, rfl⟩ := Option.mem_map.mp (Option.mem_toList.mp mem)
        simp [Ne.symm same]
      · simp [Ne.symm same]

theorem ZsetStores.delete (stores : ZsetStores contents key version scores) (member : Bytes) :
    ZsetStores (contents.applyAll (deleteScore key version (scores.get member) member)) key
      version (scores.erase member) := by
  cases stored : scores.get member with
  | none =>
      have same : scores.erase member = scores := by
        ext other : 1
        rw [SortedMap.get_erase]
        split_ifs with eq
        · rw [eq, stored]
        · rfl
      rw [same]
      exact stores
  | some old =>
      simp only [deleteScore, Option.map_some, Option.getD_some, Contents.applyAll_cons,
        Contents.applyAll_nil]
      constructor
      · intro other
        rw [SortedMap.get_erase]
        by_cases same : other = member
        · simp [same]
        · rw [Function.update_of_ne (by simp [same]), Function.update_of_ne (by simp), if_neg same]
          exact stores.item other
      · intro score name
        rw [SortedMap.get_erase, Function.update_of_ne (by simp), Function.update_apply]
        by_cases same : name = member
        · subst same
          rw [if_pos rfl]
          by_cases gone : score = old
          · simp [gone]
          · rw [if_neg (by simpa using gone), stores.index, stored,
              if_neg (by simpa using Ne.symm gone), if_neg (by simp)]
        · rw [if_neg same, if_neg (by simp [same])]
          exact stores.index score name

end View

section Commands

variable {world : World} {key : UserKey} {state : Option (UInt16 × Value)}
  {scores : SortedMap Bytes Double} {version : UInt16} {float : FloatUnit} {flags : ZaddFlags}

theorem ZsetView.refines_self (view : ZsetView world.db.contents key state scores version)
    {command : Command Reply} {reply : Reply}
    (run : command.eval atomically world = (reply, world)) :
    Refines command world key (reply, Value.ofScores scores) :=
  view.value ▸ Refines.of_eval view.valid run

theorem ZsetView.eval_getZsetMetaVal (view : ZsetView world.db.contents key state scores version) :
    ∃ zv : MetaVal, (getZsetMetaVal (encodeMetaKey key.1)).eval atomically world =
        ((if scores.size = 0 then 0 else 1, zv), world) ∧
      zv.version = version ∧ zv.length = UInt64.ofNat scores.size :=
  view.length.eval_getMetaVal DataType.zsize (Or.inr (Or.inr rfl)) view.valid

theorem isElement_putScore {old : Option Double} {member : Bytes} {score : Double} {u : Update}
    (mem : u ∈ putScore key version old member score) : u.IsElement key version := by
  rw [putScore, List.mem_append, Option.mem_toList, Option.map_eq_some_iff] at mem
  rcases mem with ⟨previous, _, rfl⟩ | mem
  · exact Or.inr ⟨_, _, rfl⟩
  · rcases List.mem_pair.mp mem with rfl | rfl
    · exact Or.inl ⟨_, rfl⟩
    · exact Or.inr ⟨_, _, rfl⟩

theorem isElement_deleteScore {old : Option Double} {member : Bytes} {u : Update}
    (mem : u ∈ deleteScore key version old member) : u.IsElement key version := by
  cases old with
  | none => cases mem
  | some previous =>
      rcases List.mem_pair.mp mem with rfl | rfl
      · exact Or.inr ⟨_, _, rfl⟩
      · exact Or.inl ⟨_, rfl⟩

/-- Several members with distinct names are given scores. -/
theorem ZsetStores.putAll {contents : Contents} (stores : ZsetStores contents key version scores)
    (changed : List (Bytes × Double)) (distinct : (changed.map Prod.fst).Nodup) :
    ZsetStores (contents.applyAll (changed.flatMap fun c =>
      putScore key version (scores.get c.1) c.1 c.2)) key version (scores.putAll changed) := by
  suffices general : ∀ (contents : Contents) (current : SortedMap Bytes Double),
      ZsetStores contents key version current →
      (∀ c ∈ changed, current.get c.1 = scores.get c.1) →
      ZsetStores (contents.applyAll (changed.flatMap fun c =>
        putScore key version (scores.get c.1) c.1 c.2)) key version (current.putAll changed) from
    general _ _ stores fun _ _ => rfl
  induction changed with
  | nil => exact fun contents current stores _ => stores
  | cons c changed ih =>
      rw [List.map_cons, List.nodup_cons] at distinct
      intro contents current stores unchanged
      rw [List.flatMap_cons, Contents.applyAll_append]
      apply ih distinct.2 _ (current.put c.1 c.2)
      · rw [← unchanged c List.mem_cons_self]
        exact stores.put c.1 c.2
      · intro later mem
        rw [SortedMap.get_put, if_neg]
        · exact unchanged later (List.mem_cons_of_mem _ mem)
        · exact fun same => distinct.1 (same ▸ List.mem_map_of_mem mem)

/-- Several members with distinct names are removed. -/
theorem ZsetStores.deleteAll {contents : Contents}
    (stores : ZsetStores contents key version scores) {removed : List Bytes}
    (distinct : removed.Nodup) :
    ZsetStores (contents.applyAll (removed.flatMap fun member =>
      deleteScore key version (scores.get member) member)) key version
        (scores.eraseAll removed) := by
  suffices general : ∀ (contents : Contents) (current : SortedMap Bytes Double),
      ZsetStores contents key version current →
      (∀ member ∈ removed, current.get member = scores.get member) →
      ZsetStores (contents.applyAll (removed.flatMap fun member =>
        deleteScore key version (scores.get member) member)) key version
          (current.eraseAll removed) from
    general _ _ stores fun _ _ => rfl
  induction removed with
  | nil => exact fun contents current stores _ => stores
  | cons member removed ih =>
      rw [List.nodup_cons] at distinct
      intro contents current stores unchanged
      rw [List.flatMap_cons, Contents.applyAll_append]
      apply ih distinct.2 _ (current.erase member)
      · rw [← unchanged member List.mem_cons_self]
        exact stores.delete member
      · intro later mem
        rw [SortedMap.get_erase, if_neg (ne_of_mem_of_not_mem mem distinct.1)]
        exact unchanged later (List.mem_cons_of_mem _ mem)

/-- An empty batch with no change of length is committed without effect on a set without
members. -/
theorem eval_commitZset_nothing {zv : MetaVal} (empty : zv.length = 0) :
    (commitZset key.1 [] zv 0).eval atomically world = (0, world) := by
  simp only [commitZset, commitSize, incrZsize, incrSize, empty, if_true, lt_irrefl,
    if_false, Program.pure_eq_done, Program.done_bind, Program.eval_bind, eval_commitBatch,
    Program.eval_done]
  rfl

/-- Commit element updates that turn the scores into `scores'`. -/
theorem ZsetView.eval_commitZset (view : ZsetView world.db.contents key state scores version)
    (updates : List Update) {scores' : SortedMap Bytes Double} (incr : Int) {zv : MetaVal}
    (versionEq : zv.version = version) (lengthEq : zv.length = UInt64.ofNat scores.size)
    (elements : ∀ u ∈ updates, u.IsElement key version)
    (stores : ZsetStores (world.db.contents.applyAll updates) key version scores')
    (incrEq : incr = scores'.size - scores.size) (small : scores'.size < 2 ^ 64)
    (nothing : scores'.size = 0 → scores.size = 0 → updates = []) :
    ∃ world' state', (commitZset key.1 (updates.map Update.encode) zv incr).eval atomically world =
        ((if scores'.size = 0 then 0 else 1), world') ∧
      Confined key world.db world'.db ∧ KeyValid world'.db.contents key state' ∧
      state'.map Prod.snd = Value.ofScores scores' := by
  subst incrEq
  by_cases stays : scores'.size = 0 ∧ scores.size = 0
  · obtain ⟨emptied, empty⟩ := stays
    rw [nothing emptied empty, emptied, empty, if_pos rfl]
    rw [empty] at lengthEq
    refine ⟨world, state, eval_commitZset_nothing lengthEq, .refl _ _, view.valid, ?_⟩
    rw [view.value, Value.ofScores, Value.ofScores, if_pos emptied, if_pos empty]
  · refine view.valid.commit elements versionEq lengthEq view.small small view.length
      (by omega) ?_
    intro positive other sameItems sameScores metadata
    refine ⟨by omega, small, metadata, fun member => ?_, fun score member => ?_⟩
    · rw [sameItems, stores.item]
    · rw [sameScores, stores.index]

theorem ZsetStores.eval_getZsetItemVal (stores : ZsetStores world.db.contents key version scores)
    (member : Bytes) :
    (getZsetItemVal (encodeZsetKey key.1 member version)).eval atomically world =
      ((if (scores.get member).isSome then 1 else 0, (scores.get member).getD 0), world) := by
  rw [getZsetItemVal, Program.eval_bind, encodeZsetKey_eq, eval_dbGet, stores.item]
  cases scores.get member with
  | none => rfl
  | some score =>
      simp only [Option.map_some, ReadStatus.ofOption, readHostOrder64_hostOrder64]
      rfl

/-- The updates for a judged member. -/
def judgedUpdates (key : UserKey) (version : UInt16) (scores : SortedMap Bytes Double)
    (judged : List (Bytes × ZaddResult × Option Double)) : List Update :=
  (judged.filterMap judgedChange).flatMap fun c => putScore key version (scores.get c.1) c.1 c.2

theorem judgedUpdates_cons (judged : Bytes × ZaddResult × Option Double)
    (rest : List (Bytes × ZaddResult × Option Double)) :
    judgedUpdates key version scores (judged :: rest) =
      judgedUpdates key version scores [judged] ++ judgedUpdates key version scores rest := by
  rw [judgedUpdates, judgedUpdates, judgedUpdates, ← List.flatMap_append, ← List.filterMap_append,
    List.singleton_append]

theorem zputs_eq (batch : List Update) (member : Bytes) (score : Double) :
    batch.map Update.encode ++ zputs key.1 member score version =
      (batch ++ putScore key version none member score).map Update.encode := by
  simp [zputs, putScore, encodeZsetKey_eq, encodeZscoreKey_eq_encode, put_eq]

theorem delete_zputs_eq (batch : List Update) (member : Bytes) (old score : Double) :
    batch.map Update.encode ++ .delete (encodeZscoreKey key.1 member old version) ::
        zputs key.1 member score version =
      (batch ++ putScore key version (some old) member score).map Update.encode := by
  simp [zputs, putScore, encodeZsetKey_eq, encodeZscoreKey_eq_encode, put_eq, delete_eq]

/-- One member is judged by its stored score, which is looked up unless the set has no members. -/
theorem eval_zsetOne (float : FloatUnit) (flags : ZaddFlags) {needCheck : Bool}
    (stores : needCheck = true → ZsetStores world.db.contents key version scores)
    (known : needCheck = false → scores = ∅) (batch : List Update) (member : Bytes)
    (score : Double) :
    (zsetOne float (batch.map Update.encode) needCheck key.1 member score version flags).eval
        atomically world =
      ((zsetJudge float flags scores member score).map fun judged => (judged.1,
        (batch ++ judgedUpdates key version scores [(member, judged)]).map Update.encode,
        judged.2), world) := by
  rw [zsetOne, zsetJudge]
  by_cases nan : score.isNan
  · simp [nan, Except.map]
  · rw [if_neg nan, if_neg nan]
    cases stored : scores.get member with
    | none =>
        cases needCheck with
        | false =>
            cases xx : flags.xx <;>
              simp [Except.map, judgedUpdates, judgedChange, zputs_eq, stored]
        | true =>
            have item := (stores rfl).eval_getZsetItemVal member
            rw [stored] at item
            cases xx : flags.xx <;>
              simp [item, Except.map, judgedUpdates, judgedChange, zputs_eq, stored]
    | some old =>
        have check : needCheck = true := by
          cases needCheck with
          | true => rfl
          | false =>
              rw [known rfl] at stored
              exact absurd stored (by simp)
        have item := (stores check).eval_getZsetItemVal member
        simp only [stored, Option.isSome_some, if_true, Option.getD_some] at item
        subst check
        have positive : ¬((1 : Int) < 0) := by decide
        simp only [if_true, Program.eval_bind, item, if_neg positive, one_ne_zero, if_false]
        cases nx : flags.nx with
        | true => simp [Except.map, judgedUpdates, judgedChange]
        | false =>
            simp only [Bool.false_eq_true, if_false]
            generalize (if flags.incr then float.add score old else score) = new
            by_cases bad : flags.incr ∧ new.isNan
            · simp [bad, Except.map]
            · rw [if_neg bad, if_neg bad]
              by_cases same : old.eq new
              · simp [same, Except.map, judgedUpdates, judgedChange]
              · simp [same, Except.map, judgedUpdates, judgedChange, delete_zputs_eq, stored]

/-- How many members met with a result. -/
def countResult (result : ZaddResult) (judged : List (Bytes × ZaddResult × Option Double)) : Nat :=
  judged.countP fun j => j.2.1 = result

theorem mapM_cons_zaddJudge (element : Bytes × Bytes) (elements : List (Bytes × Bytes)) :
    (element :: elements).mapM (zaddJudge float flags scores) =
      (zaddJudge float flags scores element).bind fun judged =>
        (elements.mapM (zaddJudge float flags scores)).map (judged :: ·) := by
  rw [List.mapM_cons]
  cases zaddJudge float flags scores element with
  | error code => rfl
  | ok judged => cases elements.mapM (zaddJudge float flags scores) <;> rfl

/-- The elements are judged one by one by the scores before the command. -/
theorem eval_zsetLoop (float : FloatUnit) (flags : ZaddFlags) {needCheck : Bool}
    (stores : needCheck = true → ZsetStores world.db.contents key version scores)
    (known : needCheck = false → scores = ∅)
    (elements : List (Bytes × Bytes)) (batch : List Update) (added updated : Int) :
    (zsetLoop float needCheck key.1 version flags elements (batch.map Update.encode) added
        updated).eval atomically world =
      ((elements.mapM (zaddJudge float flags scores)).map fun judged =>
        (added + countResult .added judged, updated + countResult .updated judged,
          (batch ++ judgedUpdates key version scores judged).map Update.encode), world) := by
  induction elements generalizing batch added updated with
  | nil => simp [zsetLoop, countResult, judgedUpdates, Except.map, pure, Except.pure]
  | cons element elements ih =>
      obtain ⟨member, val⟩ := element
      rw [zsetLoop, mapM_cons_zaddJudge, zaddJudge]
      cases float.bytesDouble val with
      | none => rfl
      | some score =>
          simp only [Program.eval_bind, eval_zsetOne float flags stores known]
          cases zsetJudge float flags scores member score with
          | error code => rfl
          | ok judged =>
              obtain ⟨result, newVal⟩ := judged
              simp only [Except.map, Except.bind]
              rw [ih]
              cases elements.mapM (zaddJudge float flags scores) with
              | error code => rfl
              | ok rest =>
                  simp only [Except.map, countResult, List.countP_cons, decide_eq_true_eq]
                  rw [judgedUpdates_cons (member, result, newVal) rest, ← List.append_assoc]
                  refine congrArg (fun counts => (Except.ok counts, world)) ?_
                  ext1
                  · split_ifs <;> push_cast <;> ring
                  · ext1
                    · split_ifs <;> push_cast <;> ring
                    · rfl

/-- A judged member is added when it has no score and updated when it has one. -/
theorem zsetJudge_cases {member : Bytes} {score : Double} {judged : ZaddResult × Option Double}
    (accepted : zsetJudge float flags scores member score = .ok judged) :
    (∃ new, judged = (.added, some new) ∧ scores.get member = none) ∨
      (∃ new, judged = (.updated, some new) ∧ (scores.get member).isSome) ∨
      judgedChange (member, judged) = none ∧ judged.1 ≠ .added ∧ judged.1 ≠ .updated := by
  rw [zsetJudge] at accepted
  split at accepted
  · cases accepted
  · cases stored : scores.get member with
    | none =>
        simp only [stored] at accepted
        split at accepted <;> cases accepted <;> simp [judgedChange]
    | some old =>
        simp only [stored] at accepted
        generalize (if flags.incr then float.add score old else score) = new at accepted
        split at accepted
        · cases accepted
          simp [judgedChange]
        · split at accepted
          · cases accepted
          · split at accepted <;> cases accepted <;> simp [judgedChange]

theorem zaddJudge_eq_ok {element : Bytes × Bytes} {judged : Bytes × ZaddResult × Option Double}
    (accepted : zaddJudge float flags scores element = .ok judged) :
    judged.1 = element.1 ∧
      ∃ score, zsetJudge float flags scores element.1 score = .ok judged.2 := by
  rw [zaddJudge] at accepted
  cases parsed : float.bytesDouble element.2 with
  | none =>
      rw [parsed] at accepted
      cases accepted
  | some score =>
      simp only [parsed] at accepted
      cases judge : zsetJudge float flags scores element.1 score with
      | error code =>
          rw [judge] at accepted
          cases accepted
      | ok outcome =>
          rw [judge] at accepted
          cases accepted
          exact ⟨rfl, score, judge⟩

/-- The members that get a score, in the order of the elements. -/
theorem judged_sublist {elements : List (Bytes × Bytes)}
    {judged : List (Bytes × ZaddResult × Option Double)}
    (accepted : elements.mapM (zaddJudge float flags scores) = .ok judged) :
    ((judged.filterMap judgedChange).map Prod.fst).Sublist (elements.map Prod.fst) ∧
      (judged.filterMap judgedChange).countP (fun c => (scores.get c.1).isNone) =
        countResult .added judged ∧
      (judged.filterMap judgedChange).length =
        countResult .added judged + countResult .updated judged := by
  induction elements generalizing judged with
  | nil =>
      cases accepted
      exact ⟨List.nil_sublist _, rfl, rfl⟩
  | cons element elements ih =>
      rw [mapM_cons_zaddJudge] at accepted
      cases first : zaddJudge float flags scores element with
      | error code =>
          rw [first] at accepted
          cases accepted
      | ok head =>
          cases later : elements.mapM (zaddJudge float flags scores) with
          | error code =>
              rw [first, later] at accepted
              cases accepted
          | ok rest =>
              rw [first, later] at accepted
              cases accepted
              obtain ⟨sublist, added, total⟩ := ih later
              obtain ⟨member, result, newVal⟩ := head
              obtain ⟨rfl, score, judge⟩ := zaddJudge_eq_ok first
              rw [countResult, countResult] at total
              rw [countResult] at added
              rcases zsetJudge_cases judge with
                ⟨new, same, missing⟩ | ⟨new, same, stored⟩ | ⟨nothing, notAdded, notUpdated⟩
              · cases same
                refine ⟨by simpa [judgedChange] using sublist, ?_, ?_⟩
                · simp [judgedChange, countResult, missing, added]
                · simp [judgedChange, countResult, total]
                  omega
              · cases same
                rw [Option.isSome_iff_ne_none] at stored
                refine ⟨by simpa [judgedChange] using sublist, ?_, ?_⟩
                · simp [judgedChange, countResult, stored, added]
                · simp [judgedChange, countResult, total]
                  omega
              · rw [List.filterMap_cons_none nothing]
                refine ⟨sublist.cons _, ?_, ?_⟩
                · simp_all [countResult]
                · simp_all [countResult]

theorem delete_pair_eq (batch : List Update) (member : Bytes) (old : Double) :
    batch.map Update.encode ++ [.delete (encodeZscoreKey key.1 member old version),
        .delete (encodeZsetKey key.1 member version)] =
      (batch ++ deleteScore key version (some old) member).map Update.encode := by
  simp [deleteScore, encodeZsetKey_eq, encodeZscoreKey_eq_encode, delete_eq]

/-- A stored member is removed, any other is left alone. -/
theorem ZsetStores.eval_zdelOne (stores : ZsetStores world.db.contents key version scores)
    (batch : List Update) (member : Bytes) :
    (zdelOne (batch.map Update.encode) key.1 member version).eval atomically world =
      ((if (scores.get member).isSome then 1 else 0,
        (batch ++ deleteScore key version (scores.get member) member).map Update.encode),
          world) := by
  rw [zdelOne, Program.eval_bind, stores.eval_getZsetItemVal]
  cases stored : scores.get member with
  | none => simp [deleteScore]
  | some old =>
      have positive : ¬((1 : Int) ≤ 0) := by decide
      simp only [Option.isSome_some, if_true, if_neg positive, Option.getD_some, delete_pair_eq,
        Program.pure_eq_done, Program.eval_done]

theorem ZsetStores.eval_zdelLoop (stores : ZsetStores world.db.contents key version scores)
    (removed : List Bytes) (batch : List Update) (count : Int) :
    (zdelLoop key.1 version removed (batch.map Update.encode) count).eval atomically world =
      (.ok (count + removed.countP (fun member => (scores.get member).isSome),
        (batch ++ removed.flatMap fun member =>
          deleteScore key version (scores.get member) member).map Update.encode), world) := by
  induction removed generalizing batch count with
  | nil => simp [zdelLoop]
  | cons member removed ih =>
      have nonneg : ¬(if (scores.get member).isSome then (1 : Int) else 0) < 0 := by
        split_ifs <;> decide
      rw [zdelLoop, Program.eval_bind, stores.eval_zdelOne]
      simp only [if_neg nonneg]
      rw [ih, List.countP_cons, List.flatMap_cons, List.append_assoc]
      have counts : count + (if (scores.get member).isSome then (1 : Int) else 0) +
          removed.countP (fun member => (scores.get member).isSome) =
          count + ((removed.countP (fun member => (scores.get member).isSome) +
            if (scores.get member).isSome then 1 else 0 : Nat) : Int) := by
        split_ifs <;> push_cast <;> ring
      rw [counts]

/-- The part of a scan between its first and its last test. -/
def between {γ : Type} (starts continues : γ → Bool) (items : List γ) : List γ :=
  (items.filter starts).takeWhile continues

/-- A count by range counts the part of its scan between the tests. -/
theorem eval_zremrangeLoop_count {γ : Type} (starts continues : γ → Bool) (member : γ → Bytes)
    (items : List γ) (batch : WriteBatch) (count : Int) :
    (zremrangeLoop starts continues member false key.1 version items batch count).eval atomically
        world =
      (.ok (count + (between starts continues items).length, batch), world) := by
  induction items generalizing count with
  | nil => simp [zremrangeLoop, between]
  | cons item items ih =>
      rw [zremrangeLoop]
      unfold between at ih ⊢
      cases started : starts item with
      | false =>
          simp only [Bool.not_false, if_true]
          rw [ih, List.filter_cons_of_neg (by simp [started])]
      | true =>
          rw [List.filter_cons_of_pos started, List.takeWhile_cons]
          cases continued : continues item with
          | false => simp
          | true =>
              simp only [Bool.not_true, Bool.false_eq_true, if_false, if_true]
              rw [ih, List.length_cons]
              push_cast
              rw [add_assoc, add_comm (1 : Int)]

/-- A removal by range removes the members in the part of its scan between the tests. -/
theorem ZsetStores.eval_zremrangeLoop {γ : Type}
    (stores : ZsetStores world.db.contents key version scores) (starts continues : γ → Bool)
    (member : γ → Bytes) (items : List γ) (batch : List Update) (count : Int) :
    (zremrangeLoop starts continues member true key.1 version items (batch.map Update.encode)
        count).eval atomically world =
      (.ok (count + ((between starts continues items).map member).length,
        (batch ++ ((between starts continues items).map member).flatMap fun member =>
          deleteScore key version (scores.get member) member).map Update.encode), world) := by
  induction items generalizing batch count with
  | nil => simp [zremrangeLoop, between]
  | cons item items ih =>
      rw [zremrangeLoop]
      unfold between at ih ⊢
      cases started : starts item with
      | false =>
          simp only [Bool.not_false, if_true]
          rw [ih, List.filter_cons_of_neg (by simp [started])]
      | true =>
          rw [List.filter_cons_of_pos started, List.takeWhile_cons]
          cases continued : continues item with
          | false => simp
          | true =>
              have nonneg : ¬(if (scores.get (member item)).isSome then (1 : Int) else 0) < 0 := by
                split_ifs <;> decide
              simp only [Bool.not_true, Bool.false_eq_true, if_false, if_true, Program.eval_bind,
                stores.eval_zdelOne, if_neg nonneg]
              rw [ih, List.map_cons, List.length_cons, List.flatMap_cons, List.append_assoc]
              push_cast
              rw [add_assoc, add_comm (1 : Int)]

end Commands

end Vcdb
