import Vcdb.Codec.RoundTrip
import Vcdb.Lib.Clients
import Vcdb.Keyspace.RequestDeed

/-!
# Footprints

Which records a command may write.  Whatever it reads, a command writes records of the keys it is
given only, and all of them lie under the encodings of storage keys.
-/

namespace Vcdb

open Clients

/-- The user key that a record belongs to. -/
def StorageKey.userKey : StorageKey → Bytes
  | metadata key | item key _ _ | zscore key _ _ _ | ekey key | escore _ key | delete key _ => key

/-- Items and score entries. -/
def StorageKey.IsElement : StorageKey → Prop
  | item _ _ _ | zscore _ _ _ _ => True
  | metadata _ | ekey _ | escore _ _ | delete _ _ => False

/-- All updates are of records of a kind. -/
def Within (p : StorageKey → Prop) (batch : WriteBatch) : Prop :=
  ∀ op ∈ batch, ∃ record, p record ∧ op.key = record.encode

/-- Operations that write records of a kind only, and touch no record mutex. -/
def WritesWithin (p : StorageKey → Prop) : StorageOp → Prop
  | .write batch => Within p batch
  | .lock _ | .unlock _ => False
  | _ => True

/-- The calls that take a record mutex or give it back. -/
def recordMutex : StorageOp → MutexUse Bytes
  | .lock key => .acquire key
  | .unlock key => .release key
  | _ => .aside

/-- Writes of records of a kind, under one record mutex at a time. -/
def workMonitor (p : StorageKey → Prop) : Monitor storage (Option Bytes) where
  allows held
    | .write batch => Within p batch
    | op => (recordMutex op).Turns held ((recordMutex op).turn held)
  after held op _ := some ((recordMutex op).turn held)
  idle _ := False

/-- The command writes records of a kind only, and it holds one record mutex at a time. -/
def Command.Works {α : Type} (command : Command α) (p : StorageKey → Prop) (post : α → Prop) :
    Prop :=
  command.Follows (workMonitor p) (fun _ => False) (fun held value => held = none ∧ post value) none

/-- The kind takes in all records of a key but the elements of its value. -/
structure Admits (p : StorageKey → Prop) (key : Bytes) : Prop where
  metadata : p (.metadata key)
  ekey : p (.ekey key)
  escore : ∀ score, p (.escore score key)
  delete : ∀ version, p (.delete key version)

/-- Records of other kinds are what they were. -/
def DiffersWithin (p : StorageKey → Prop) (db after : DB) : Prop :=
  ∀ raw : Bytes, after.get raw = db.get raw ∨ ∃ record, p record ∧ raw = record.encode

section Batches

variable {p : StorageKey → Prop} {db after last : DB} {batch more : WriteBatch} {key : Bytes}
  {version : UInt16}

theorem DiffersWithin.refl (db : DB) : DiffersWithin p db db := fun _ => Or.inl rfl

theorem DiffersWithin.trans (first : DiffersWithin p db after) (second : DiffersWithin p after last) :
    DiffersWithin p db last := by
  intro raw
  rcases second raw with same | own
  · rcases first raw with same' | own
    · exact Or.inl (same.trans same')
    · exact Or.inr own
  · exact Or.inr own

theorem Within.differs (within : Within p batch) (db : DB) :
    DiffersWithin p db (batch.apply db) := by
  intro raw
  by_cases touched : ∃ op ∈ batch, op.key = raw
  · obtain ⟨op, mem, rfl⟩ := touched
    exact Or.inr (within op mem)
  · exact Or.inl (WriteBatch.get_apply_of_untouched fun op mem same => touched ⟨op, mem, same⟩)

theorem within_nil : Within p [] := fun _ mem => (by cases mem)

theorem Within.append (left : Within p batch) (right : Within p more) : Within p (batch ++ more) :=
  fun op mem => (List.mem_append.mp mem).elim (left op) (right op)

theorem Within.cons {op : BatchOp} (first : ∃ record, p record ∧ op.key = record.encode)
    (rest : Within p batch) : Within p (op :: batch) := List.forall_mem_cons.mpr ⟨first, rest⟩

theorem within_metadata (admits : Admits p key) (val : Bytes) :
    Within p [.put (encodeMetaKey key) val] :=
  within_nil.cons ⟨.metadata key, admits.metadata, rfl⟩

theorem within_marks (admits : Admits p key) (metaVal : Bytes) (version : UInt16) :
    Within p [.put (encodeMetaKey key) metaVal, .put (encodeDeleteKey key version) []] :=
  (within_nil.cons ⟨.delete key version, admits.delete version, rfl⟩).cons
    ⟨.metadata key, admits.metadata, rfl⟩

theorem within_expiry (admits : Admits p key) (score : UInt64) :
    Within p [.delete (encodeEscoreKey key score), .delete (encodeEsetKey key)] :=
  (within_nil.cons ⟨.ekey key, admits.ekey, rfl⟩).cons ⟨.escore score key, admits.escore score, rfl⟩

end Batches

/-! ### Commands on values -/

section Values

variable {key : Bytes} {batch : WriteBatch}

/-- The records of one key. -/
def StorageKey.Of (key : Bytes) (record : StorageKey) : Prop := record.userKey = key

theorem admits_of (key : Bytes) : Admits (StorageKey.Of key) key :=
  ⟨rfl, rfl, fun _ => rfl, fun _ => rfl⟩

theorem Elements.within {version : UInt16} (elements : Elements key version batch) :
    Within (StorageKey.Of key) batch := by
  intro op mem
  rcases elements op mem with ⟨field, same⟩ | ⟨score, field, same⟩
  · exact ⟨.item key version field, rfl, same⟩
  · exact ⟨.zscore key version score field, rfl, same⟩

theorem Fits.within {metaVal : Option Bytes} {expiry : Option ReadStatus}
    (fits : Fits key metaVal expiry batch) : Within (StorageKey.Of key) batch := by
  have admits := admits_of key
  cases fits with
  | elements _ elements => exact elements.within
  | stored _ _ before behind =>
      exact before.within.append (behind.within.cons ⟨.metadata key, rfl, rfl⟩)
  | @deleted _ version _ _ _ answer _ _ elements either =>
      refine (elements.within.append ?_).append ?_
      · rcases either with rfl | rfl
        · exact (within_metadata admits _).cons ⟨.delete key version, admits.delete version, rfl⟩
        · exact within_marks admits _ version
      · cases answer with
        | ok strScore => exact within_expiry admits _
        | notFound => exact within_nil
        | error => exact within_nil

/-- A command that keeps to the discipline writes records of its key only. -/
theorem WritesValue.differs {α : Type} {metadata : Option (Option Bytes)} {careful : Bool}
    {type : UInt8} {abort : α → Prop} {command : Command α}
    (writes : WritesValue metadata key careful type abort command) (world : World) :
    DiffersWithin (StorageKey.Of key) world.db (command.eval atomically world).2.db := by
  have kept : ∀ op (state : World),
      (∀ batch, op = .write batch → Within (StorageKey.Of key) batch) →
      DiffersWithin (StorageKey.Of key) world.db state.db →
      DiffersWithin (StorageKey.Of key) world.db (atomically op state).2.db := by
    intro op state writes before
    cases op with
    | write batch => exact before.trans ((writes batch rfl).differs state.db)
    | _ => exact before
  have ended := @Program.Follows.eval storage α Watch World (valueMonitor key careful)
    { metadata } abort (Ends type abort false) atomically
    (fun _ state => DiffersWithin (StorageKey.Of key) world.db state.db)
    (fun state => DiffersWithin (StorageKey.Of key) world.db state.db)
    (fun watch op state allowed before => by
      have after := kept op state (fun batch same => by
        subst same
        obtain ⟨_, _, _, _, _, fits⟩ := allowed
        exact fits.within) before
      exact ⟨fun _ => after, fun _ _ => after⟩)
    (fun op state idle before => kept op state (fun batch same => by
      subst same
      exact idle.elim) before) command writes world (DiffersWithin.refl _)
  rcases ended with ⟨_, _, after⟩ | ⟨_, after⟩
  · exact after
  · exact after

theorem ValueCommand.differs (floats : Floats) (command : ValueCommand) (world : World) :
    DiffersWithin (StorageKey.Of command.key) world.db
      ((command.run floats).eval atomically world).2.db := by
  by_cases unread : command.Unread
  · obtain ⟨reply, same⟩ := command.run_unread floats unread
    rw [same]
    exact DiffersWithin.refl _
  · exact (command.writesValue floats unread).differs world

end Values

/-! ### Commands on whole keys -/

section Whole

variable {α β : Type} {p : StorageKey → Prop} {key : Bytes} {batch : WriteBatch}

theorem within_dbGet (raw : Bytes) : (dbGet raw).Ensures (WritesWithin p) fun _ => True :=
  ⟨trivial, fun _ => trivial⟩

/-- A commit, with what follows its success and its failure. -/
theorem within_commit {kept lost : Command α} {post : α → Prop} (writes : Within p batch)
    (committed : kept.Ensures (WritesWithin p) post) (failed : lost.Ensures (WritesWithin p) post) :
    (do if ← commitBatch batch then kept else lost).Ensures (WritesWithin p) post := by
  refine ⟨writes, fun written => ?_⟩
  cases written with
  | true => exact committed
  | false => exact failed

theorem works_done {value : α} {post : α → Prop} (met : post value) :
    Command.Works (.done value) p post := ⟨rfl, met⟩

theorem Command.Works.bind {command : Command α} {rest : α → Command β} {post : α → Prop}
    {last : β → Prop} (first : command.Works p post)
    (later : ∀ value, post value → Command.Works (rest value) p last) :
    Command.Works (command >>= rest) p last :=
  Program.Follows.bind first (fun held value ended => by
    obtain ⟨rfl, met⟩ := ended
    exact later value met) fun _ failed => failed.elim

/-- The mutex is the same to the end. -/
theorem follows_of_within {command : Command α} {post : α → Prop}
    (ensures : command.Ensures (WritesWithin p) post) (held : Option Bytes) :
    command.Follows (workMonitor p) (fun _ => False) (fun last value => last = held ∧ post value)
      held := by
  induction command with
  | done value => exact ⟨rfl, ensures⟩
  | call op next ih =>
      obtain ⟨allowed, rest⟩ := ensures
      refine (Program.follows_call op next).mpr ⟨?_, fun answer =>
        ⟨fun failed => (by cases failed), fun note same => ?_⟩⟩
      · cases op with
        | lock name => exact allowed.elim
        | unlock name => exact allowed.elim
        | write batch => exact allowed
        | _ => rfl
      · obtain rfl := Option.some_inj.mp same
        cases op with
        | lock name => exact allowed.elim
        | unlock name => exact allowed.elim
        | _ => exact ih answer (rest answer)

theorem works_of_within {command : Command α} {post : α → Prop}
    (ensures : command.Ensures (WritesWithin p) post) : command.Works p post :=
  follows_of_within ensures none

theorem works_recordKeyLock {name : Bytes} {body : Command α} {post : α → Prop}
    (ensures : body.Ensures (WritesWithin p) post) : (recordKeyLock name body).Works p post := by
  refine ⟨⟨rfl, rfl⟩, fun _ => ?_⟩
  refine (follows_of_within ensures (some name)).bind (fun held value ended => ?_)
    fun _ failed => failed.elim
  obtain ⟨rfl, met⟩ := ended
  exact ⟨⟨rfl, rfl⟩, fun _ => ⟨rfl, met⟩⟩

theorem within_eget (key : Bytes) : (eget key).Ensures (WritesWithin p) fun _ => True := by
  refine (within_dbGet _).bind fun status _ => ?_
  cases status with
  | ok strScore => trivial
  | notFound => trivial
  | error => trivial

theorem within_edelOne (admits : Admits p key) (writes : Within p batch) :
    (edelOne key batch).Ensures (WritesWithin p) fun result => Within p result.2 := by
  refine (within_eget key).bind fun read _ => ?_
  simp only
  split_ifs
  · exact writes
  · exact writes
  · exact writes.append (within_expiry admits _)

theorem within_cancelExpiration (admits : Admits p key) (writes : Within p batch) :
    (cancelExpiration key batch).Ensures (WritesWithin p) fun result => Within p result.2 :=
  ⟨trivial, fun _ => within_edelOne admits writes⟩

theorem within_esetOne (admits : Admits p key) (writes : Within p batch) (ts : Int64) :
    (esetOne key batch ts).Ensures (WritesWithin p) fun result => Within p result.2 := by
  have stored : Within p [.put (encodeEsetKey key) (hostOrder64 ts.toUInt64),
      .put (encodeEscoreKey key ts.toUInt64) []] :=
    (within_nil.cons ⟨.escore ts.toUInt64 key, admits.escore _, rfl⟩).cons
      ⟨.ekey key, admits.ekey, rfl⟩
  refine (within_eget key).bind fun read _ => ?_
  simp only
  split_ifs
  · exact writes
  · exact (writes.append (within_nil.cons ⟨.escore _ key, admits.escore _, rfl⟩)).append stored
  · exact writes.append stored

theorem within_checkMetaKey (key : Bytes) :
    (checkMetaKey key).Ensures (WritesWithin p) fun _ => True := by
  refine (within_dbGet _).bind fun status _ => ?_
  cases status with
  | ok metaVal =>
      simp only
      cases metaVal[posDel]? with
      | none => trivial
      | some del => trivial
  | notFound => trivial
  | error => trivial

theorem within_delKeyInternal (admits : Admits p key) (writes : Within p batch) :
    (delKeyInternal key batch).Ensures (WritesWithin p) fun result => Within p result.2 := by
  refine (within_dbGet _).bind fun status _ => ?_
  cases status with
  | ok metaVal =>
      simp only
      split_ifs
      · rw [markKeyDeleted]
        cases decodeMetaHeader metaVal with
        | none => exact writes
        | some found =>
            simp only
            split_ifs
            · exact (within_cancelExpiration admits
                (writes.append (within_marks admits _ _))).bind fun _ after => after
            · exact writes
      · exact writes
  | notFound => exact writes
  | error => exact writes

theorem within_expireAtInternal (admits : Admits p key) (writes : Within p batch) (ts : Int64) (lock : Bool) :
    (expireAtInternal key ts batch lock).Ensures (WritesWithin p)
      fun result => Within p result.2 := by
  have ends : ∀ ret : Int, ∀ batch, Within p batch → (do
      if lock ∧ ret ≥ 0 then
        if ← commitBatch batch then return (2, batch) else return (storageErr, batch)
      else return (2, batch) : Command (Int × WriteBatch)).Ensures (WritesWithin p)
        fun result => Within p result.2 := by
    intro ret batch writes
    split_ifs
    · exact within_commit writes writes writes
    · exact writes
  have stores : ∀ live : Int, (do
      if live ≤ 0 then return (live, batch)
      else
        let stored ← esetOne key batch ts
        if stored.1 ≤ 0 then return (stored.1, stored.2)
        else
          insertFastKey key ts
          if lock ∧ stored.1 ≥ 0 then
            if ← commitBatch stored.2 then return (2, stored.2)
            else return (storageErr, stored.2)
          else return (2, stored.2) : Command (Int × WriteBatch)).Ensures (WritesWithin p)
        fun result => Within p result.2 := by
    intro live
    by_cases dead : live ≤ 0
    · rw [if_pos dead]
      exact writes
    · rw [if_neg dead]
      refine (within_esetOne admits writes ts).bind fun stored after => ?_
      by_cases failed : stored.1 ≤ 0
      · rw [if_pos failed]
        exact after
      · rw [if_neg failed]
        exact ⟨trivial, fun _ => ends stored.1 stored.2 after⟩
  refine ⟨trivial, fun now => ?_⟩
  change (if ts ≤ now then _ else _ : Command (Int × WriteBatch)).Ensures (WritesWithin p) _
  by_cases past : ts ≤ now
  · rw [if_pos past]
    exact (within_delKeyInternal admits writes).bind fun deleted after => ends deleted.1 deleted.2 after
  · rw [if_neg past]
    cases lock with
    | true => exact (within_checkMetaKey key).bind fun live _ => stores live
    | false => exact stores 1

theorem works_expireAt (admits : Admits p key) (writes : Within p batch) (ts : Int64) :
    (expireAt key ts batch true).Works p fun _ => True :=
  works_recordKeyLock ((within_expireAtInternal admits writes ts true).mono fun _ _ => trivial)

theorem within_getKvMetaVal (metaKey : Bytes) :
    (getKvMetaVal metaKey).Ensures (WritesWithin p) fun _ => True := by
  refine (within_dbGet metaKey).bind fun status _ => ?_
  cases status with
  | ok metaVal =>
      simp only
      cases KvMetaVal.decodeMetaVal metaVal with
      | error code => trivial
      | ok kv =>
          simp only
          split_ifs
          · trivial
          · trivial
  | notFound => trivial
  | error => trivial

theorem within_setGeneric (admits : Admits p key) (writes : Within p batch) (val : Bytes) (flags : SetFlags)
    (expireMs : Int64) : (setGeneric key batch val flags expireMs).Ensures (WritesWithin p)
      fun result => Within p result.2.2 := by
  rw [setGeneric]
  by_cases early : (flags.ex ∨ flags.px) ∧ expireMs ≤ 0
  · rw [if_pos early]
    exact writes
  · rw [if_neg early]
    refine (within_getKvMetaVal _).bind fun read _ => ?_
    obtain ⟨ret, kv⟩ := read
    have written : ∀ added : Int, Within p (if added = 1 then
        batch ++ [.put (encodeMetaKey key) (encodeKvVal val kv.version)] else batch) := by
      intro added
      split_ifs
      · exact writes.append (within_metadata admits _)
      · exact writes
    change (if ret < 0 then _ else _ : Command (Int × Int × WriteBatch)).Ensures (WritesWithin p) _
    by_cases failed : ret < 0
    · rw [if_pos failed]
      exact writes
    rw [if_neg failed]
    simp only
    generalize (if ret = 0 then if flags.xx = true then 0 else 1
      else if flags.nx = true then 0 else 1 : Int) = added
    have before := written added
    by_cases expiring : flags.ex ∨ flags.px
    · rw [if_pos expiring]
      split_ifs at before ⊢ with performed _ asked
      · exact ⟨trivial, fun now => (within_expireAtInternal admits before _ false).bind fun result after => by
          exact after⟩
      · exact before
      · exact absurd asked.2 performed
      · exact before
    · rw [if_neg expiring]
      split_ifs at before ⊢
      · exact (within_cancelExpiration admits before).bind fun result after => by exact after
      · exact before

theorem works_set (admits : Admits p key) (val : Bytes) (flags : SetFlags) (expireMs : Int64) :
    (Kv.set key val flags expireMs).Works p fun _ => True := by
  refine works_recordKeyLock ((within_setGeneric admits within_nil val flags expireMs).bind
    fun written after => ?_)
  obtain ⟨ret, added, batch⟩ := written
  change (if ret < 0 then _ else _ : Command (Int × Int)).Ensures (WritesWithin p) _
  by_cases failed : ret < 0
  · rw [if_pos failed]
    trivial
  · rw [if_neg failed]
    exact within_commit after trivial trivial

theorem works_getset (admits : Admits p key) (newval : Bytes) :
    (getset key newval).Works p fun _ => True := by
  refine works_recordKeyLock ((within_getKvMetaVal _).bind fun read _ => ?_)
  obtain ⟨ret, kv⟩ := read
  have commits : ∀ batch, Within p batch → (do
      if ← commitBatch (batch ++ [.put (encodeMetaKey key) (encodeKvVal newval kv.version)]) then
        return .ok (if ret = 0 then none else some kv.value)
      else return .error storageErr : Command (Except Int (Option Bytes))).Ensures (WritesWithin p)
        fun _ => True := by
    intro batch writes
    exact within_commit (writes.append (within_metadata admits _)) trivial trivial
  change (if ret < 0 then _ else _ : Command (Except Int (Option Bytes))).Ensures (WritesWithin p) _
  by_cases failed : ret < 0
  · rw [if_pos failed]
    trivial
  rw [if_neg failed]
  by_cases absent : ret = 0
  · subst absent
    exact commits [] within_nil
  · simp only [if_neg absent] at commits ⊢
    exact (within_cancelExpiration admits within_nil).bind fun cancelled after =>
      commits cancelled.2 after

theorem works_persist (admits : Admits p key) : (persist key).Works p fun _ => True := by
  refine ⟨rfl, fun first => ?_⟩
  change (if first = int64Max then _ else _ : Command Int).Works p _
  by_cases never : first = int64Max
  · rw [if_pos never]
    exact works_done trivial
  rw [if_neg never]
  refine works_recordKeyLock ((within_cancelExpiration admits within_nil).bind
    fun cancelled after => ?_)
  obtain ⟨ret, batch⟩ := cancelled
  change (if ret ≥ 0 then _ else _ : Command Int).Ensures (WritesWithin p) _
  by_cases success : ret ≥ 0
  · rw [if_pos success]
    exact within_commit after trivial trivial
  · rw [if_neg success]
    trivial

theorem within_multiDelLoop {keys : List Bytes} (admits : ∀ key ∈ keys, Admits p key)
    (writes : Within p batch) (num : Int) :
    (multiDelLoop keys batch num).Ensures (WritesWithin p) fun result =>
      ∀ counted, result = .ok counted → Within p counted.2 := by
  induction keys generalizing batch num with
  | nil =>
      rintro _ ⟨⟩
      exact writes
  | cons key keys ih =>
      refine (within_delKeyInternal (admits key List.mem_cons_self) writes).bind fun deleted after => ?_
      obtain ⟨ret, batch⟩ := deleted
      change (if ret < 0 then _ else _ :
        Command (Except Int (Int × WriteBatch))).Ensures (WritesWithin p) _
      by_cases failed : ret < 0
      · rw [if_pos failed]
        exact fun _ same => (by cases same)
      · rw [if_neg failed]
        exact ih (fun other mem => admits other (List.mem_cons_of_mem _ mem)) after _

theorem within_multiDel {keys : List Bytes} (admits : ∀ key ∈ keys, Admits p key) :
    (multiDel keys).Ensures (WritesWithin p) fun _ => True := by
  refine (within_multiDelLoop admits within_nil 0).bind fun result after => ?_
  cases result with
  | error code => trivial
  | ok counted =>
      exact within_commit (after counted rfl) trivial trivial

theorem works_multiSetLoop {kvs : List (Bytes × Bytes)}
    (admits : ∀ kv ∈ kvs, Admits p kv.1) (seen : List Bytes)
    (writes : Within p batch) (rval : Int) :
    (multiSetLoop kvs seen batch rval).Works p fun result =>
      ∀ counted, result = .ok counted → Within p counted.2 := by
  induction kvs generalizing seen batch rval with
  | nil =>
      refine works_done ?_
      rintro _ ⟨⟩
      exact writes
  | cons kv kvs ih =>
      refine (works_recordKeyLock (within_setGeneric (admits kv List.mem_cons_self) writes kv.2 {} 0)).bind
        fun written after => ?_
      obtain ⟨ret, added, batch⟩ := written
      change (if ret < 0 then _ else _ :
        Command (Except Int (Int × WriteBatch))).Works p _
      by_cases failed : ret < 0
      · rw [if_pos failed]
        exact works_done fun _ same => (by cases same)
      · rw [if_neg failed]
        exact ih (fun other mem => admits other (List.mem_cons_of_mem _ mem)) _ after _

theorem works_multiSet {kvs : List (Bytes × Bytes)} (admits : ∀ kv ∈ kvs, Admits p kv.1) :
    (multiSet kvs).Works p fun _ => True := by
  refine (works_multiSetLoop admits [] within_nil 0).bind fun result after => ?_
  cases result with
  | error code => trivial
  | ok counted =>
      exact works_of_within (within_commit (after counted rfl) trivial trivial)

/-- What follows makes no more calls. -/
theorem works_thenReply {command : Command α} {reply : α → Command β}
    (first : command.Works p fun _ => True)
    (replies : ∀ value, ∃ result, reply value = .done result) :
    (command >>= reply).Works p fun _ => True :=
  first.bind fun value _ => by
    obtain ⟨result, same⟩ := replies value
    rw [same]
    trivial

theorem works_setWithOptions (admits : Admits p key) (val : Bytes) (options : SetOptions) :
    (setWithOptions key val options).Works p fun _ => True := by
  rw [setWithOptions]
  cases convert2ms options.ttl options.unit with
  | error code => trivial
  | ok ttl =>
      refine works_thenReply (works_set admits val options.flags ttl) fun written => ?_
      simp only
      split_ifs
      · exact ⟨_, rfl⟩
      · exact ⟨_, rfl⟩
      · exact ⟨_, rfl⟩

theorem works_setExpiring (admits : Admits p key) (unit : TimeUnit) (flags : SetFlags)
    (argument val : Bytes) :
    (setExpiring unit flags key argument val).Works p fun _ => True := by
  rw [setExpiring]
  cases int64Argument argument with
  | none => trivial
  | some ttl =>
      by_cases early : ttl ≤ 0
      · simp only [if_pos early]
        trivial
      simp only [if_neg early]
      cases convert2ms ttl unit with
      | error code => trivial
      | ok ttl =>
          refine works_thenReply (works_set admits val flags ttl) fun written => ?_
          split_ifs
          · exact ⟨_, rfl⟩
          · exact ⟨_, rfl⟩

theorem works_expireAtInstant (admits : Admits p key) (instant : Int64) :
    (expireAtInstant key instant).Works p fun _ => True := by
  refine works_thenReply (works_expireAt admits within_nil instant) fun result => ?_
  obtain ⟨ret, batch⟩ := result
  simp only
  split_ifs
  · exact ⟨_, rfl⟩
  · exact ⟨_, rfl⟩

theorem works_expireIn (admits : Admits p key) (unit : TimeUnit) (reply : Int → Reply)
    (argument : Bytes) :
    (expireIn unit reply key argument).Works p fun _ => True := by
  rw [expireIn]
  cases string2ll argument with
  | none => trivial
  | some amount =>
      have expires : (expire key amount unit).Works p fun _ => True := by
        rw [expire]
        cases convert2ms amount unit with
        | error code => trivial
        | ok ttl =>
            exact ⟨rfl, fun now => (works_expireAt admits within_nil (now + ttl)).bind
              fun _ _ => works_done trivial⟩
      refine works_thenReply expires fun ret => ?_
      split_ifs
      · exact ⟨_, rfl⟩
      · exact ⟨_, rfl⟩

end Whole

/-- Only such records change. -/
theorem differs_of_works {α : Type} {p : StorageKey → Prop} {command : Command α}
    (works : command.Works p fun _ => True) (world : World) :
    DiffersWithin p world.db (command.eval atomically world).2.db := by
  have ended := @Program.Follows.eval storage α (Option Bytes) World (workMonitor p) none
    (fun _ => False) (fun held _ => held = none ∧ True) atomically
    (fun _ after => DiffersWithin p world.db after.db) (fun _ => False)
    (fun _ op state allowed differs => ⟨fun failed => (by cases failed), fun _ _ => by
      cases op with
      | write batch => exact differs.trans (Within.differs allowed state.db)
      | _ => exact differs⟩)
    (fun _ _ idle _ => idle) command works world (DiffersWithin.refl world.db)
  rcases ended with ⟨_, _, differs⟩ | ⟨failed, _⟩
  · exact differs
  · exact failed.elim

/-! ### Requests -/

/-- The user keys a request names. -/
def Request.keys : Request → List Bytes
  | value command => [command.key]
  | set key _ _ | setnx key _ | setex key _ _ | psetex key _ _ | getset key _ | expire key _
  | pexpire key _ | expireat key _ | pexpireat key _ | persist key => [key]
  | mset kvs => kvs.map Prod.fst
  | del keys => keys

/-- The records a request may write: of the keys it names, and elements only where it works on a
value. -/
def Request.Footprint (request : Request) (record : StorageKey) : Prop :=
  record.userKey ∈ request.keys ∧ (record.IsElement → ∃ command, request = value command)

theorem Request.admits (request : Request) {key : Bytes} (named : key ∈ request.keys) :
    Admits request.Footprint key :=
  ⟨⟨named, False.elim⟩, ⟨named, False.elim⟩, fun _ => ⟨named, False.elim⟩,
    fun _ => ⟨named, False.elim⟩⟩

theorem Request.works (floats : Floats) (request : Request)
    (whole : ∀ command, request ≠ value command) :
    (request.run floats).Works request.Footprint fun _ => True := by
  have admits := fun key => @Request.admits request key
  cases request with
  | value command => exact absurd rfl (whole command)
  | set key val options =>
      have own := admits key List.mem_cons_self
      rw [run, procSet]
      cases setOptions options {} with
      | error code => trivial
      | ok options => exact works_setWithOptions own val options
  | setnx key val =>
      have own := admits key List.mem_cons_self
      refine works_thenReply (works_set own val _ 0) fun written => ?_
      obtain ⟨ret, added⟩ := written
      simp only
      split_ifs
      · exact ⟨_, rfl⟩
      · exact ⟨_, rfl⟩
  | setex key seconds val => exact works_setExpiring (admits key List.mem_cons_self) _ _ seconds val
  | psetex key millis val => exact works_setExpiring (admits key List.mem_cons_self) _ _ millis val
  | getset key val =>
      refine works_thenReply (works_getset (admits key List.mem_cons_self) val) fun result => ?_
      rcases result with code | none | old
      · exact ⟨_, rfl⟩
      · exact ⟨_, rfl⟩
      · exact ⟨_, rfl⟩
  | mset kvs =>
      have own : ∀ kv ∈ kvs, Admits (mset kvs).Footprint kv.1 := fun kv mem =>
        admits kv.1 (List.mem_map_of_mem mem)
      rw [run, procMset]
      split_ifs
      · trivial
      · refine works_thenReply (works_multiSet own) fun ret => ?_
        split_ifs
        · exact ⟨_, rfl⟩
        · exact ⟨_, rfl⟩
  | del keys =>
      have own : ∀ key ∈ (byteSet keys).keys, Admits (del keys).Footprint key := fun key mem =>
        admits key (mem_keys_byteSet.mp mem)
      rw [run, procDel]
      split_ifs
      · trivial
      · refine works_thenReply (works_of_within (within_multiDel own)) fun result => ?_
        cases result with
        | error code => exact ⟨_, rfl⟩
        | ok num => exact ⟨_, rfl⟩
  | expire key seconds => exact works_expireIn (admits key List.mem_cons_self) _ _ seconds
  | pexpire key millis => exact works_expireIn (admits key List.mem_cons_self) _ _ millis
  | expireat key seconds =>
      rw [run, procExpireat]
      cases string2ll seconds with
      | none => trivial
      | some ts => exact works_expireAtInstant (admits key List.mem_cons_self) _
  | pexpireat key millis =>
      rw [run, procPexpireat]
      cases string2ll millis with
      | none => trivial
      | some ts => exact works_expireAtInstant (admits key List.mem_cons_self) _
  | persist key =>
      refine works_thenReply (works_persist (admits key List.mem_cons_self)) fun ret => ?_
      split_ifs
      · exact ⟨_, rfl⟩
      · exact ⟨_, rfl⟩

/-- A request changes records of its footprint only. -/
theorem Request.differs (floats : Floats) (request : Request) (world : World) :
    DiffersWithin request.Footprint world.db ((request.run floats).eval atomically world).2.db := by
  by_cases whole : ∀ command, request ≠ value command
  · exact differs_of_works (request.works floats whole) world
  · push Not at whole
    obtain ⟨command, rfl⟩ := whole
    intro raw
    rcases command.differs floats world raw with same | ⟨record, own, spelled⟩
    · exact Or.inl same
    · exact Or.inr ⟨record, ⟨List.mem_singleton.mpr own, fun _ => ⟨command, rfl⟩⟩, spelled⟩

/-! ### Well-spelled stores -/

/-- Every record lies under the encoding of a storage key. -/
def Spelled (db : DB) : Prop :=
  ∀ raw : Bytes, (db.get raw).isSome → ∃ record : StorageKey, raw = record.encode

theorem spelled_empty : Spelled ∅ := fun _ found => (by cases found)

theorem DiffersWithin.spelled {p : StorageKey → Prop} {db after : DB}
    (differs : DiffersWithin p db after) (spelled : Spelled db) : Spelled after := by
  intro raw found
  rcases differs raw with same | ⟨record, _, own⟩
  · exact spelled raw (same ▸ found)
  · exact ⟨record, own⟩

end Vcdb
