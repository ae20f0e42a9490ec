import Vcdb.Keyspace.ZsetCommand

/-!
# What writing to a sorted set touches

Whatever the store answers, a command that writes to a sorted set only commits updates of its own
key.  On a live sorted set it keeps the version, or deletes the set.
-/

namespace Vcdb

/-! ### Ownership -/

/-- A batch of updates of one user key. -/
def OwnedBatch (key : UserKey) (batch : WriteBatch) : Prop :=
  ∃ updates : List Update, (∀ update ∈ updates, update.owner = key) ∧
    batch = updates.map Update.encode

/-- Operations that commit updates of one user key only, and give no cursor out. -/
def OnlyWrites (key : UserKey) : StorageOp → Prop
  | .write batch => OwnedBatch key batch
  | .newCursor _ => False
  | _ => True

/-- Two worlds that differ in the records of one user key, and not in their cursors. -/
structure WritesOwn (key : UserKey) (before after : World) : Prop where
  cursors : after.cursors = before.cursors
  updated : ∃ updates : List Update, (∀ update ∈ updates, update.owner = key) ∧
    after.db = WriteBatch.apply (updates.map Update.encode) before.db

section Ownership

variable {key : UserKey}

theorem OwnedBatch.nil : OwnedBatch key [] := ⟨[], by simp, rfl⟩

theorem OwnedBatch.append {first second : WriteBatch} (left : OwnedBatch key first)
    (right : OwnedBatch key second) : OwnedBatch key (first ++ second) := by
  obtain ⟨updates, owned, rfl⟩ := left
  obtain ⟨more, ownedMore, rfl⟩ := right
  refine ⟨updates ++ more, fun update mem => ?_, (List.map_append).symm⟩
  exact (List.mem_append.mp mem).elim (owned update) (ownedMore update)

theorem OwnedBatch.put {batch : WriteBatch} (record : RecordKey) (val : Bytes)
    (own : record.owner = key) (rest : OwnedBatch key batch) :
    OwnedBatch key (.put record.encode val :: batch) := by
  obtain ⟨updates, owned, rfl⟩ := rest
  exact ⟨⟨record, some val⟩ :: updates, List.forall_mem_cons.mpr ⟨own, owned⟩, rfl⟩

theorem OwnedBatch.delete {batch : WriteBatch} (record : RecordKey) (own : record.owner = key)
    (rest : OwnedBatch key batch) : OwnedBatch key (.delete record.encode :: batch) := by
  obtain ⟨updates, owned, rfl⟩ := rest
  exact ⟨⟨record, none⟩ :: updates, List.forall_mem_cons.mpr ⟨own, owned⟩, rfl⟩

theorem WritesOwn.refl (world : World) : WritesOwn key world world :=
  ⟨rfl, [], by simp, rfl⟩

theorem WritesOwn.trans {first second third : World} (left : WritesOwn key first second)
    (right : WritesOwn key second third) : WritesOwn key first third := by
  obtain ⟨updates, owned, same⟩ := left.updated
  obtain ⟨more, ownedMore, same'⟩ := right.updated
  refine ⟨right.cursors.trans left.cursors, updates ++ more, fun update mem => ?_, ?_⟩
  · exact (List.mem_append.mp mem).elim (owned update) (ownedMore update)
  · rw [same', same, List.map_append, WriteBatch.apply, WriteBatch.apply, WriteBatch.apply,
      List.foldl_append]

theorem WritesOwn.wellKeyed {before after : World} (writes : WritesOwn key before after)
    (keyed : before.db.WellKeyed) : after.db.WellKeyed := by
  obtain ⟨updates, _, same⟩ := writes.updated
  exact keyed.updated ⟨updates, same⟩

/-- The records of the other user keys are as before. -/
theorem WritesOwn.frameOff {before after : World} (writes : WritesOwn key before after) :
    FrameOff key before.db.contents after.db.contents := by
  obtain ⟨updates, owned, same⟩ := writes.updated
  rw [same, DB.contents_apply]
  exact frameOff_applyAll owned

theorem OnlyWrites.writesOwn {op : StorageOp} (world : World) (allowed : OnlyWrites key op) :
    WritesOwn key world (atomically op world).2 := by
  cases op with
  | write batch =>
      obtain ⟨updates, owned, rfl⟩ := allowed
      exact ⟨rfl, updates, owned, rfl⟩
  | newCursor element => cases allowed
  | _ => exact ⟨rfl, [], by simp, rfl⟩

/-- Running a command that only writes to its own key. -/
theorem writesOwn_eval {α : Type} {command : Command α} {post : α → Prop}
    (ensures : command.Ensures (OnlyWrites key) post) (world : World) :
    WritesOwn key world (command.eval atomically world).2 :=
  (ensures.eval WritesOwn.refl (fun _ _ _ => WritesOwn.trans)
    (fun _ world allowed => allowed.writesOwn world) world).2

end Ownership

section Commands

variable {α : Type} {key : UserKey}

theorem ensures_recordKeyLock {name : Bytes} {body : Command α} {post : α → Prop}
    (ensures : body.Ensures (OnlyWrites key) post) :
    (recordKeyLock name body).Ensures (OnlyWrites key) post :=
  ⟨trivial, fun _ => ensures.bind fun _ met => ⟨trivial, fun _ => met⟩⟩

theorem ensures_dbGet (raw : Bytes) : (dbGet raw).Ensures (OnlyWrites key) fun _ => True :=
  ⟨trivial, fun _ => trivial⟩

theorem ensures_commitBatch {batch : WriteBatch} (owned : OwnedBatch key batch) :
    (commitBatch batch).Ensures (OnlyWrites key) fun _ => True :=
  ⟨owned, fun _ => trivial⟩

theorem ensures_getMetaVal (type freshType : UInt8) (metaKey : Bytes) :
    (getMetaVal type freshType metaKey).Ensures (OnlyWrites key) fun _ => True := by
  refine (ensures_dbGet metaKey).bind fun status _ => ?_
  cases status with
  | ok metaVal =>
      simp only
      cases MetaVal.decodeMetaVal metaVal with
      | error code => trivial
      | ok mv =>
          simp only
          split_ifs <;> trivial
  | notFound => trivial
  | error => trivial

theorem ensures_getZsetItemVal (itemKey : Bytes) :
    (getZsetItemVal itemKey).Ensures (OnlyWrites key) fun _ => True := by
  refine (ensures_dbGet itemKey).bind fun status _ => ?_
  cases status with
  | ok strScore => trivial
  | notFound => trivial
  | error => trivial

theorem ensures_cancelExpiration {batch : WriteBatch} (owned : OwnedBatch key batch) :
    (cancelExpiration key.1 batch).Ensures (OnlyWrites key) fun result =>
      OwnedBatch key result.2 := by
  have read : (eget key.1).Ensures (OnlyWrites key) fun _ => True := by
    refine (ensures_dbGet _).bind fun status _ => ?_
    cases status with
    | ok strScore => trivial
    | notFound => trivial
    | error => trivial
  refine ⟨trivial, fun _ => read.bind ?_⟩
  rintro ⟨found, oldTs⟩ _
  simp only
  split_ifs
  · exact owned
  · exact owned
  · exact owned.append (.delete (.escore oldTs.toUInt64 key) rfl (.delete (.ekey key) rfl .nil))

theorem ensures_incrSize {type : UInt8} {batch : WriteBatch} {mv : MetaVal} {incr : Int}
    (owned : OwnedBatch key batch) :
    (incrSize type key.1 batch (encodeMetaKey key.1) mv incr).Ensures (OnlyWrites key) fun result =>
      OwnedBatch key result.2 := by
  have sized : ∀ metaVal, OwnedBatch key (batch ++ [.put (encodeMetaKey key.1) metaVal]) :=
    fun metaVal => owned.append (.put (.metadata key) metaVal rfl .nil)
  rw [incrSize]
  split_ifs
  · exact sized _
  · exact owned
  · exact owned
  · exact owned
  · exact owned
  · simp only
    split_ifs
    · refine Program.Ensures.bind (ensures_cancelExpiration ?_) fun result met => met
      exact owned.append (.put (.delete key mv.version) _ rfl (.put (.metadata key) _ rfl .nil))
    · exact sized _
  · simp only
    split_ifs
    · refine Program.Ensures.bind (ensures_cancelExpiration ?_) fun result met => met
      exact owned.append (.put (.delete key mv.version) _ rfl (.put (.metadata key) _ rfl .nil))
    · exact sized _

theorem ensures_commitSize {incr : Command (Int × WriteBatch)}
    (ensures : incr.Ensures (OnlyWrites key) fun result => OwnedBatch key result.2) :
    (commitSize incr).Ensures (OnlyWrites key) fun _ => True := by
  refine ensures.bind fun result owned => ?_
  obtain ⟨iret, batch⟩ := result
  simp only
  by_cases failed : iret < 0
  · rw [if_pos failed]
    trivial
  · rw [if_neg failed]
    refine (ensures_commitBatch owned).bind fun committed _ => ?_
    split_ifs <;> trivial

theorem ensures_commitZset {batch : WriteBatch} {zv : MetaVal} {incr : Int}
    (owned : OwnedBatch key batch) :
    (commitZset key.1 batch zv incr).Ensures (OnlyWrites key) fun _ => True :=
  ensures_commitSize (ensures_incrSize owned)

theorem ownedBatch_zputs (member : Bytes) (score : Double) (version : UInt16) :
    OwnedBatch key (zputs key.1 member score version) :=
  .put (.item key version member) _ rfl (.put (.zscore key version score member) _ rfl .nil)

theorem ensures_zdelOne {batch : WriteBatch} (owned : OwnedBatch key batch) (member : Bytes)
    (version : UInt16) :
    (zdelOne batch key.1 member version).Ensures (OnlyWrites key) fun result =>
      OwnedBatch key result.2 := by
  refine (ensures_getZsetItemVal _).bind ?_
  rintro ⟨ret, oldScore⟩ _
  simp only
  split_ifs
  · exact owned
  · exact owned.append (.delete (.zscore key version oldScore member) rfl
      (.delete (.item key version member) rfl .nil))

theorem ensures_zdelLoop {batch : WriteBatch} (owned : OwnedBatch key batch) (version : UInt16)
    (members : List Bytes) (count : Int) :
    (zdelLoop key.1 version members batch count).Ensures (OnlyWrites key) fun result =>
      ∀ outcome, result = .ok outcome → OwnedBatch key outcome.2 := by
  induction members generalizing batch count with
  | nil =>
      rintro outcome ⟨⟩
      exact owned
  | cons member members ih =>
      refine (ensures_zdelOne owned member version).bind ?_
      rintro ⟨ret, batch⟩ owned
      simp only
      split_ifs
      · rintro outcome ⟨⟩
      · exact ih owned _

theorem ensures_zsetOne (float : FloatUnit) {batch : WriteBatch} (owned : OwnedBatch key batch)
    (needCheck : Bool) (member : Bytes) (score : Double) (version : UInt16) (flags : ZaddFlags) :
    (zsetOne float batch needCheck key.1 member score version flags).Ensures (OnlyWrites key)
      fun result => ∀ outcome, result = .ok outcome → OwnedBatch key outcome.2.1 := by
  have inserted : ∀ outcome, (if flags.xx then Except.ok (ZaddResult.nop, batch, none)
      else .ok (.added, batch ++ zputs key.1 member score version, some score) :
        Except Int (ZaddResult × WriteBatch × Option Double)) = .ok outcome →
      OwnedBatch key outcome.2.1 := by
    intro outcome same
    split_ifs at same
    · cases same
      exact owned
    · cases same
      exact owned.append (ownedBatch_zputs member score version)
  have updated : ∀ old new, OwnedBatch key (batch ++
      .delete (encodeZscoreKey key.1 member old version) :: zputs key.1 member new version) :=
    fun old new => owned.append
      (.delete (.zscore key version old member) rfl (ownedBatch_zputs member new version))
  rw [zsetOne]
  by_cases nan : score.isNan
  · rw [if_pos nan]
    rintro outcome ⟨⟩
  · rw [if_neg nan]
    cases needCheck with
    | false => exact inserted
    | true =>
        refine (ensures_getZsetItemVal _).bind fun result _ => ?_
        obtain ⟨found, oldScore⟩ := result
        simp only
        by_cases failed : found < 0
        · rw [if_pos failed]
          rintro outcome ⟨⟩
        · by_cases missing : found = 0
          · rw [if_neg failed, if_pos missing]
            exact inserted
          · rw [if_neg failed, if_neg missing]
            generalize (if flags.incr then float.add score oldScore else score) = new
            split_ifs
            all_goals rintro outcome ⟨⟩
            · exact owned
            · exact owned
            · exact owned
            · exact updated oldScore new

theorem ensures_zsetLoop (float : FloatUnit) {batch : WriteBatch} (owned : OwnedBatch key batch)
    (needCheck : Bool) (version : UInt16) (flags : ZaddFlags) (members : List (Bytes × Bytes))
    (added updated : Int) :
    (zsetLoop float needCheck key.1 version flags members batch added updated).Ensures
      (OnlyWrites key) fun result => ∀ outcome, result = .ok outcome →
        OwnedBatch key outcome.2.2 := by
  induction members generalizing batch added updated with
  | nil =>
      rintro outcome ⟨⟩
      exact owned
  | cons element members ih =>
      obtain ⟨member, val⟩ := element
      rw [zsetLoop]
      cases float.bytesDouble val with
      | none => rintro outcome ⟨⟩
      | some score =>
          refine (ensures_zsetOne float owned needCheck member score version flags).bind
            fun result met => ?_
          cases result with
          | error code => rintro outcome ⟨⟩
          | ok outcome => exact ih (met outcome rfl) _ _

theorem ensures_zsetNoLock (float : FloatUnit) (sortedSet : SortedMap Bytes Bytes)
    (flags : ZaddFlags) :
    (zsetNoLock float key.1 sortedSet flags).Ensures (OnlyWrites key) fun _ => True := by
  rw [zsetNoLock]
  by_cases conflict : flags.nx ∧ flags.xx
  · rw [if_pos conflict]
    trivial
  · rw [if_neg conflict]
    by_cases several : flags.incr ∧ sortedSet.size > 1
    · rw [if_pos several]
      trivial
    · rw [if_neg several]
      refine (ensures_getMetaVal _ _ _).bind fun result _ => ?_
      obtain ⟨ret, zv⟩ := result
      simp only
      by_cases failed : ret < 0
      · rw [if_pos failed]
        trivial
      · rw [if_neg failed]
        refine (ensures_zsetLoop float .nil _ zv.version flags sortedSet.entries 0 0).bind
          fun result met => ?_
        cases result with
        | error code => trivial
        | ok outcome =>
            refine (ensures_commitZset (met outcome rfl)).bind fun iret _ => ?_
            split_ifs <;> trivial

theorem ensures_zdelNoLock (members : SortedMap Bytes Unit) :
    (zdelNoLock key.1 members).Ensures (OnlyWrites key) fun _ => True := by
  refine (ensures_getMetaVal _ _ _).bind fun result _ => ?_
  obtain ⟨ret, zv⟩ := result
  simp only
  by_cases none : ret ≤ 0
  · rw [if_pos none]
    trivial
  · rw [if_neg none]
    refine (ensures_zdelLoop .nil zv.version members.keys 0).bind fun result met => ?_
    cases result with
    | error code => trivial
    | ok outcome =>
        exact (ensures_commitZset (met outcome rfl)).bind fun _ _ => trivial

theorem ensures_zincr (float : FloatUnit) (member : Bytes) (increment : Double)
    (flags : ZaddFlags) :
    (zincr float key.1 member increment flags).Ensures (OnlyWrites key) fun _ => True := by
  refine ensures_recordKeyLock ((ensures_getMetaVal _ _ _).bind fun result _ => ?_)
  obtain ⟨ret, zv⟩ := result
  simp only
  by_cases failed : ret < 0
  · rw [if_pos failed]
    trivial
  · rw [if_neg failed]
    refine (ensures_zsetOne float .nil _ member increment zv.version flags).bind
      fun result met => ?_
    cases result with
    | error code => trivial
    | ok outcome =>
        obtain ⟨result, batch, newVal⟩ := outcome
        have owned : OwnedBatch key batch := met _ rfl
        simp only
        by_cases added : result = .added
        · rw [if_pos added]
          refine (ensures_commitZset owned).bind fun iret _ => ?_
          split_ifs <;> trivial
        · rw [if_neg added]
          refine (ensures_commitBatch owned).bind fun committed _ => ?_
          split_ifs <;> trivial

/-- The commands that write to a sorted set only touch their own key. -/
theorem ensures_procZadd (float : FloatUnit) (flags : ZaddFlags)
    (elements : List (Bytes × Bytes)) :
    (procZadd float key.1 flags elements).Ensures (OnlyWrites key) fun _ => True := by
  cases elements with
  | nil => trivial
  | cons element more =>
      obtain ⟨member, val⟩ := element
      rw [procZadd]
      by_cases conflict : flags.nx ∧ flags.xx
      · rw [if_pos conflict]
        trivial
      · rw [if_neg conflict]
        by_cases incr : flags.incr
        · rw [if_pos incr]
          by_cases several : more ≠ []
          · rw [if_pos several]
            trivial
          · rw [if_neg several]
            cases float.bytesDouble val with
            | none => trivial
            | some score =>
                refine (ensures_zincr float member score flags).bind fun result _ => ?_
                cases result with
                | error code => trivial
                | ok outcome =>
                    obtain ⟨result, newVal⟩ := outcome
                    simp only
                    split_ifs <;> trivial
        · rw [if_neg incr]
          refine Program.Ensures.bind (ensures_recordKeyLock (ensures_zsetNoLock float _ flags))
            fun result _ => ?_
          obtain ⟨ret, num⟩ := result
          simp only
          split_ifs <;> trivial

theorem ensures_procZincrby (float : FloatUnit) (increment member : Bytes) :
    (procZincrby float key.1 increment member).Ensures (OnlyWrites key) fun _ => True := by
  rw [procZincrby]
  cases float.bytesDouble increment with
  | none => trivial
  | some score =>
      refine (ensures_zincr float member score { incr := true }).bind fun result _ => ?_
      cases result with
      | error code => trivial
      | ok outcome => trivial

theorem ensures_procZrem (members : List Bytes) :
    (procZrem key.1 members).Ensures (OnlyWrites key) fun _ => True := by
  rw [procZrem]
  by_cases none : members = []
  · rw [if_pos none]
    trivial
  · rw [if_neg none]
    refine Program.Ensures.bind (ensures_recordKeyLock (ensures_zdelNoLock _)) fun result _ => ?_
    obtain ⟨ret, count⟩ := result
    simp only
    split_ifs <;> trivial

end Commands

/-! ### The live version -/

/-- The metadata names a version, and the items and the index of the version are those of the
scores.  The length is left open. -/
structure ZsetLive (contents : Contents) (key : UserKey) (version : UInt16)
    (scores : SortedMap Bytes Double) : Prop where
  metadata : ∃ length, contents (.metadata key) = some (encodeZsetMetaVal length version)
  stores : ZsetStores contents key version scores

/-- A sorted set is live under its version, or was deleted. -/
def ZsetKept (contents : Contents) (key : UserKey) (version : UInt16) : Prop :=
  (∃ scores, ZsetLive contents key version scores) ∨ contents.Deleted key version

section Kept

variable {key : UserKey} {version : UInt16} {scores scores' : SortedMap Bytes Double}
  {updates : List Update} {zv : MetaVal} {world : World}

theorem ZsetLive.of_valid {contents : Contents}
    (valid : KeyValid contents key (some (version, .zset scores))) :
    ZsetLive contents key version scores :=
  have ⟨_, _, metadata, item, index⟩ := valid.represented
  ⟨⟨_, metadata⟩, item, index⟩

/-- Only records of the sorted set itself matter. -/
theorem ZsetLive.congr {contents other : Contents} (live : ZsetLive contents key version scores)
    (same : ∀ record : RecordKey, record.owner = key → other record = contents record) :
    ZsetLive other key version scores := by
  obtain ⟨⟨length, metadata⟩, item, index⟩ := live
  refine ⟨⟨length, (same _ rfl).trans metadata⟩, fun member => ?_, fun score member => ?_⟩
  · exact (same (.item key version member) rfl).trans (item member)
  · exact (same (.zscore key version score member) rfl).trans (index score member)

theorem ZsetLive.eval_getZsetMetaVal (live : ZsetLive world.db.contents key version scores) :
    ∃ zv : MetaVal, (getZsetMetaVal (encodeMetaKey key.1)).eval atomically world =
      ((1, zv), world) ∧ zv.version = version := by
  obtain ⟨length, metadata⟩ := live.metadata
  exact ⟨_, eval_getMetaVal_live (Or.inr (Or.inr rfl)) metadata, rfl⟩

/-- What a change of the number of members adds to a batch: nothing, the new length, or the marks of
a deletion. -/
theorem eval_incrZsize (world : World) (key : UserKey) (updates : List Update) (zv : MetaVal)
    (incr : Int) :
    ∃ ret more world', (incrZsize key.1 (updates.map Update.encode) zv incr).eval atomically world =
        ((ret, (updates ++ more).map Update.encode), world') ∧ world'.db = world.db ∧
      (more = [] ∨
        (∃ length, more = [⟨.metadata key, some (encodeZsetMetaVal length zv.version)⟩]) ∨
        more = [⟨.delete key zv.version, some []⟩, ⟨.metadata key,
            some (encodeZsetMetaVal zv.length zv.version keyDeleteMask)⟩] ++
          cancelUpdates world.db.contents key) := by
  have unchanged : updates.map Update.encode = (updates ++ []).map Update.encode := by
    rw [List.append_nil]
  have resized : ∀ length, updates.map Update.encode ++
      [.put (encodeMetaKey key.1) (encodeMetaValInternal DataType.zsize length zv.version
        keyEnabledMask)] =
      (updates ++ ([⟨.metadata key, some (encodeZsetMetaVal length zv.version)⟩] :
        List Update)).map Update.encode := by
    intro length
    rw [List.map_append]
    rfl
  have marked : updates.map Update.encode ++ [.put (encodeDeleteKey key.1 zv.version) [],
      .put (encodeMetaKey key.1)
        (encodeMetaValInternal DataType.zsize zv.length zv.version keyDeleteMask)] =
      (updates ++ ([⟨.delete key zv.version, some []⟩, ⟨.metadata key,
        some (encodeZsetMetaVal zv.length zv.version keyDeleteMask)⟩] : List Update)).map
          Update.encode := by
    rw [List.map_append]
    rfl
  obtain ⟨ret, cancelled⟩ := eval_cancelExpiration world key (updates ++
    [⟨.delete key zv.version, some []⟩, ⟨.metadata key,
      some (encodeZsetMetaVal zv.length zv.version keyDeleteMask)⟩])
  rw [List.append_assoc] at cancelled
  simp only [incrZsize, incrSize]
  split_ifs
  · exact ⟨1, _, world, by rw [resized]; rfl, rfl, Or.inr (Or.inl ⟨_, rfl⟩)⟩
  · exact ⟨0, [], world, by rw [unchanged]; rfl, rfl, Or.inl rfl⟩
  · exact ⟨invalidIncrLen, [], world, by rw [unchanged]; rfl, rfl, Or.inl rfl⟩
  · exact ⟨1, [], world, by rw [unchanged]; rfl, rfl, Or.inl rfl⟩
  · exact ⟨invalidIncrLen, [], world, by rw [unchanged]; rfl, rfl, Or.inl rfl⟩
  · refine ⟨0, _, world.delFastKey key.1, ?_, rfl, Or.inr (Or.inr rfl)⟩
    rw [marked, Program.eval_bind, cancelled]
    rfl
  · exact ⟨1, _, world, by rw [resized]; rfl, rfl, Or.inr (Or.inl ⟨_, rfl⟩)⟩
  · refine ⟨0, _, world.delFastKey key.1, ?_, rfl, Or.inr (Or.inr rfl)⟩
    rw [marked, Program.eval_bind, cancelled]
    rfl
  · exact ⟨1, _, world, by rw [resized]; rfl, rfl, Or.inr (Or.inl ⟨_, rfl⟩)⟩

/-- Element updates and a new length keep the set live, the marks of a deletion delete it. -/
theorem ZsetLive.kept_applyAll {contents old : Contents}
    (live : ZsetLive contents key version scores)
    (elements : ∀ u ∈ updates, u.IsElement key version)
    (stores : ZsetStores (contents.applyAll updates) key version scores') {more : List Update}
    {length : UInt64}
    (sized : more = [] ∨
      (∃ length, more = [⟨.metadata key, some (encodeZsetMetaVal length version)⟩]) ∨
      more = [⟨.delete key version, some []⟩, ⟨.metadata key,
          some (encodeZsetMetaVal length version keyDeleteMask)⟩] ++ cancelUpdates old key) :
    ZsetKept (contents.applyAll (updates ++ more)) key version := by
  rw [Contents.applyAll_append]
  rcases sized with rfl | ⟨length, rfl⟩ | rfl
  · obtain ⟨length, metadata⟩ := live.metadata
    have kept : contents.applyAll updates (.metadata key) = contents (.metadata key) :=
      applyAll_of_element elements (by simp) (by simp)
    exact Or.inl ⟨scores', ⟨length, kept.trans metadata⟩, stores⟩
  · refine Or.inl ⟨scores', ⟨length, by simp⟩, fun member => ?_, fun score member => ?_⟩
    · rw [← stores.item]
      simp
    · rw [← stores.index]
      simp
  · refine Or.inr ⟨_, ⟨DataType.zsize, version, keyDeleteMask⟩, _, ?_,
      decodeMetaHeader_metaVal DataType.zsize length version keyDeleteMask (Or.inl rfl), rfl, rfl⟩
    rw [Contents.applyAll_append, applyAll_cancelUpdates (by simp) (by simp)]
    simp [encodeZsetMetaVal]

theorem ZsetLive.eval_commitZset (live : ZsetLive world.db.contents key version scores)
    (versionEq : zv.version = version) (elements : ∀ u ∈ updates, u.IsElement key version)
    (stores : ZsetStores (world.db.contents.applyAll updates) key version scores') (incr : Int) :
    ∃ ret world', (commitZset key.1 (updates.map Update.encode) zv incr).eval atomically world =
      (ret, world') ∧ ZsetKept world'.db.contents key version := by
  obtain ⟨ret, more, world', run, same, sized⟩ := eval_incrZsize world key updates zv incr
  rw [versionEq] at sized
  by_cases failed : ret < 0
  · refine ⟨ret, world', ?_, Or.inl ⟨scores, by rw [same]; exact live⟩⟩
    simp only [commitZset, commitSize, Program.eval_bind, run, if_pos failed, Program.pure_eq_done,
      Program.eval_done]
  · obtain ⟨after, committed, _, contents⟩ := eval_commitSize_of (not_lt.mp failed) run
    refine ⟨_, after, committed, ?_⟩
    rw [contents, same]
    exact live.kept_applyAll elements stores sized

/-- Element updates without a change of length. -/
theorem ZsetLive.kept_commitBatch (live : ZsetLive world.db.contents key version scores)
    (elements : ∀ u ∈ updates, u.IsElement key version)
    (stores : ZsetStores (world.db.contents.applyAll updates) key version scores') :
    ZsetKept (DB.contents (WriteBatch.apply (updates.map Update.encode) world.db)) key version := by
  have kept := @ZsetLive.kept_applyAll key version scores scores' updates _ world.db.contents live
    elements stores [] 0 (Or.inl rfl)
  rw [List.append_nil] at kept
  rw [DB.contents_apply]
  exact kept

theorem ZsetLive.kept_zsetNoLock (live : ZsetLive world.db.contents key version scores)
    (float : FloatUnit) (sortedSet : SortedMap Bytes Bytes) (flags : ZaddFlags) :
    ZsetKept ((zsetNoLock float key.1 sortedSet flags).eval atomically world).2.db.contents key
      version := by
  have stays : ZsetKept world.db.contents key version := Or.inl ⟨scores, live⟩
  obtain ⟨zv, readMeta, versionEq⟩ := live.eval_getZsetMetaVal
  have loop := @eval_zsetLoop world key scores version float flags true (fun _ => live.stores)
    (by simp) sortedSet.entries [] 0 0
  have notFailed : ¬(1 : Int) < 0 := by decide
  simp only [List.map_nil, List.nil_append] at loop
  rw [zsetNoLock]
  by_cases conflict : flags.nx ∧ flags.xx
  · rw [if_pos conflict]
    exact stays
  · by_cases several : flags.incr ∧ sortedSet.size > 1
    · rw [if_neg conflict, if_pos several]
      exact stays
    · rw [if_neg conflict, if_neg several]
      simp only [Program.eval_bind, readMeta, if_neg notFailed, one_ne_zero, ne_eq,
        not_false_eq_true, decide_true, versionEq, loop]
      cases judges : sortedSet.entries.mapM (zaddJudge float flags scores) with
      | error code => exact stays
      | ok judged =>
          obtain ⟨sublist, _⟩ := judged_sublist judges
          obtain ⟨iret, world', run, kept⟩ := live.eval_commitZset versionEq
            (fun _ => elements_judgedUpdates)
            (live.stores.putAll _ (sublist.nodup (SortedMap.keys_nodup _)))
            (0 + countResult .added judged)
          have committed : (commitZset key.1 ((judgedUpdates key version scores judged).map
              Update.encode) zv (0 + countResult .added judged)).eval atomically world =
                (iret, world') := run
          simp only [Except.map, Program.eval_bind, committed]
          by_cases failed : iret < 0
          · rw [if_pos failed]
            exact kept
          · rw [if_neg failed]
            exact kept

theorem ZsetLive.kept_zdelNoLock (live : ZsetLive world.db.contents key version scores)
    (members : SortedMap Bytes Unit) :
    ZsetKept ((zdelNoLock key.1 members).eval atomically world).2.db.contents key version := by
  obtain ⟨zv, readMeta, versionEq⟩ := live.eval_getZsetMetaVal
  have loop := live.stores.eval_zdelLoop members.keys [] 0
  have present : ¬(1 : Int) ≤ 0 := by decide
  simp only [List.map_nil, List.nil_append] at loop
  simp only [zdelNoLock, Program.eval_bind, readMeta, if_neg present, versionEq, loop]
  obtain ⟨ret, world', run, kept⟩ := live.eval_commitZset versionEq
    (fun _ => elements_deleteScore) (live.stores.deleteAll members.keys_nodup)
    (-(0 + (members.keys.countP fun member => (scores.get member).isSome : Nat)))
  rw [run]
  exact kept

theorem ZsetLive.kept_zincr (live : ZsetLive world.db.contents key version scores)
    (float : FloatUnit) (member : Bytes) (increment : Double) (flags : ZaddFlags) :
    ZsetKept ((zincr float key.1 member increment flags).eval atomically world).2.db.contents key
      version := by
  have stays : ZsetKept world.db.contents key version := Or.inl ⟨scores, live⟩
  obtain ⟨zv, readMeta, versionEq⟩ := live.eval_getZsetMetaVal
  have write := @eval_zsetOne world key scores version float flags true (fun _ => live.stores)
    (by simp) [] member increment
  have notFailed : ¬(1 : Int) < 0 := by decide
  simp only [List.map_nil, List.nil_append] at write
  simp only [zincr, eval_recordKeyLock, Program.eval_bind, readMeta, if_neg notFailed, one_ne_zero,
    ne_eq, not_false_eq_true, decide_true, versionEq, write]
  cases judge : zsetJudge float flags scores member increment with
  | error code => exact stays
  | ok judged =>
      obtain ⟨result, newVal⟩ := judged
      have distinct : (([(member, result, newVal)].filterMap judgedChange).map Prod.fst).Nodup := by
        cases change : judgedChange (member, result, newVal) with
        | none => simp [change]
        | some c => simp [change]
      have stores := live.stores.putAll _ distinct
      simp only [Except.map]
      split_ifs
      · obtain ⟨iret, world', run, kept⟩ := live.eval_commitZset versionEq
          (fun _ => elements_judgedUpdates) stores 1
        have committed : (commitZset key.1 ((judgedUpdates key version scores
            [(member, result, newVal)]).map Update.encode) zv 1).eval atomically world =
              (iret, world') := run
        simp only [Program.eval_bind, committed]
        split_ifs
        · exact kept
        · exact kept
      · exact live.kept_commitBatch (fun _ => elements_judgedUpdates) stores

theorem ZsetLive.kept_procZadd (live : ZsetLive world.db.contents key version scores)
    (float : FloatUnit) (flags : ZaddFlags) (elements : List (Bytes × Bytes)) :
    ZsetKept ((procZadd float key.1 flags elements).eval atomically world).2.db.contents key
      version := by
  have stays : ZsetKept world.db.contents key version := Or.inl ⟨scores, live⟩
  cases elements with
  | nil => exact stays
  | cons element more =>
      obtain ⟨member, val⟩ := element
      rw [procZadd]
      by_cases conflict : flags.nx ∧ flags.xx
      · rw [if_pos conflict]
        exact stays
      · rw [if_neg conflict]
        by_cases incr : flags.incr
        · rw [if_pos incr]
          by_cases several : more ≠ []
          · rw [if_pos several]
            exact stays
          · rw [if_neg several]
            cases float.bytesDouble val with
            | none => exact stays
            | some score =>
                have kept := live.kept_zincr float member score flags
                simp only [Program.eval_bind]
                cases ((zincr float key.1 member score flags).eval atomically world).1 with
                | error code => exact kept
                | ok outcome =>
                    simp only [Program.pure_eq_done, Program.eval_ite, Program.eval_done]
                    split_ifs
                    · exact kept
                    · exact kept
        · have kept := live.kept_zsetNoLock float
            (scoreMap flags.nx ((member, val) :: more)) flags
          rw [if_neg incr]
          simp only [multiZset, Program.eval_bind, eval_recordKeyLock, Program.pure_eq_done,
            Program.eval_ite, Program.eval_done]
          split_ifs
          · exact kept
          · exact kept

theorem ZsetLive.kept_procZincrby (live : ZsetLive world.db.contents key version scores)
    (float : FloatUnit) (increment member : Bytes) :
    ZsetKept ((procZincrby float key.1 increment member).eval atomically world).2.db.contents key
      version := by
  rw [procZincrby]
  cases float.bytesDouble increment with
  | none => exact Or.inl ⟨scores, live⟩
  | some score =>
      have kept := live.kept_zincr float member score { incr := true }
      simp only [Program.eval_bind]
      cases ((zincr float key.1 member score { incr := true }).eval atomically world).1 with
      | error code => exact kept
      | ok outcome => exact kept

theorem ZsetLive.kept_procZrem (live : ZsetLive world.db.contents key version scores)
    (members : List Bytes) :
    ZsetKept ((procZrem key.1 members).eval atomically world).2.db.contents key version := by
  rw [procZrem]
  by_cases none : members = []
  · rw [if_pos none]
    exact Or.inl ⟨scores, live⟩
  · have kept := live.kept_zdelNoLock (byteSet members)
    rw [if_neg none]
    simp only [multiZdel, Program.eval_bind, eval_recordKeyLock, Program.pure_eq_done,
      Program.eval_ite, Program.eval_done]
    split_ifs
    · exact kept
    · exact kept

end Kept

namespace ZsetCommand

/-- ZADD, ZINCRBY and ZREM. -/
def WritesMembers : ZsetCommand → Prop
  | zadd _ _ _ | zincrby _ _ _ | zrem _ _ => True
  | _ => False

variable {command : ZsetCommand} {key : UserKey} {world : World}

theorem writesOwn_run (float : FloatUnit) (writes : command.WritesMembers)
    (own : command.key = key.1) (world : World) :
    WritesOwn key world ((command.run float).eval atomically world).2 := by
  cases command <;> cases own
  case zadd flags elements => exact writesOwn_eval (ensures_procZadd float flags elements) world
  case zincrby increment member =>
    exact writesOwn_eval (ensures_procZincrby float increment member) world
  case zrem members => exact writesOwn_eval (ensures_procZrem members) world
  all_goals exact writes.elim

theorem kept_run (float : FloatUnit) (writes : command.WritesMembers) (own : command.key = key.1)
    {version : UInt16} {scores : SortedMap Bytes Double}
    (live : ZsetLive world.db.contents key version scores) :
    ZsetKept ((command.run float).eval atomically world).2.db.contents key version := by
  cases command <;> cases own
  case zadd flags elements => exact live.kept_procZadd float flags elements
  case zincrby increment member => exact live.kept_procZincrby float increment member
  case zrem members => exact live.kept_procZrem members
  all_goals exact writes.elim

end ZsetCommand

end Vcdb
