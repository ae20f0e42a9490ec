import Vcdb.Keyspace.ValueRequest

/-!
# Deeds

What one write does to the records of its key, to the delete keys, and to the memory of expiries.
-/

namespace Vcdb

/-! ### Lives -/

/-- What a write may make of the life of its key. -/
inductive Life.Step : Life → Life → Prop
  | same (life : Life) : Step life life
  | opened {life : Life} {type : UInt8} {version : UInt16} (opens : life.Opens type version) :
      Step life (live type version)
  | deleted (type : UInt8) (version : UInt16) : Step (live type version) (deleted version)

def Life.IsLive (life : Life) : Prop := ∃ type version, life = live type version

theorem metaLive_iff_isLive {db : DB} {key : Bytes} : MetaLive db key ↔ (db.life key).IsLive :=
  metaLive_iff_life

/-! ### Delete keys -/

/-- No delete key is lost. -/
def MarksKept (db after : DB) : Prop :=
  ∀ raw : Bytes, raw.head? = some DataType.delete → (db.get raw).isSome → (after.get raw).isSome

/-- An update that removes no delete key. -/
def BatchOp.KeepsMarks (op : BatchOp) : Prop :=
  op.key.head? = some DataType.delete → ∃ key val, op = .put key val

theorem MarksKept.refl (db : DB) : MarksKept db db := fun _ _ => id

theorem MarksKept.trans {first second third : DB} (left : MarksKept first second)
    (right : MarksKept second third) : MarksKept first third :=
  fun raw family found => right raw family (left raw family found)

theorem marksKept_apply {db : DB} {batch : WriteBatch} (keeps : ∀ op ∈ batch, op.KeepsMarks) :
    MarksKept db (batch.apply db) := by
  induction batch generalizing db with
  | nil => exact MarksKept.refl db
  | cons op batch ih =>
      refine MarksKept.trans ?_ (ih fun op mem => keeps op (List.mem_cons_of_mem _ mem))
      intro raw family found
      have kept := keeps op List.mem_cons_self
      cases op with
      | put key val =>
          refine (congrArg Option.isSome (SortedMap.get_put db key raw val)).trans ?_
          split_ifs
          · rfl
          · exact found
      | delete key =>
          refine (congrArg Option.isSome (SortedMap.get_erase db key raw)).trans ?_
          rw [if_neg]
          · exact found
          · rintro rfl
            obtain ⟨_, _, same⟩ := kept family
            cases same

/-! ### Expiries -/

/-- What a write does to the expiry of its key. -/
inductive ExpiryChange
  | keep
  | forget
  | set (ts : Int64)
deriving DecidableEq

namespace ExpiryChange

/-- The records of the key, whose metadata have been written already. -/
def records : ExpiryChange → KeyRecords → KeyRecords
  | keep, records => records
  | forget, records => records.forget records.expiry
  | set ts, records =>
      records.expire (records.expiry.map fun strScore => (readHostOrder64 strScore).toInt64) ts

def memory (key : Bytes) : ExpiryChange → ExpirationHandler → ExpirationHandler
  | keep, handler => handler
  | forget, handler => handler.delFastKey key
  | set ts, handler => handler.insertFastKey key ts

/-- Only what is live may be given an expiry, and what dies loses it. -/
def Fits : ExpiryChange → Life → Life → Prop
  | keep, before, after => after = before ∨ after.IsLive
  | forget, _, _ => True
  | set _, _, after => after.IsLive

end ExpiryChange

/-- What one write does. -/
structure Deed (key : Bytes) (change : ExpiryChange) (world after : World) : Prop where
  ledger : after.db.ledger = Function.update world.db.ledger key
    (change.records { world.db.ledger key with metaVal := (after.db.ledger key).metaVal })
  expiration : after.expiration = change.memory key world.expiration
  marks : MarksKept world.db after.db
  life : (world.db.life key).Step (after.db.life key)
  /-- The delete key comes with the deletion. -/
  marked : ∀ version, after.db.life key = .deleted version →
    world.db.life key = .deleted version ∨ (after.db.get (encodeDeleteKey key version)).isSome
  fits : change.Fits (world.db.life key) (after.db.life key)

@[simp]
theorem ExpiryChange.metaVal_records (change : ExpiryChange) (records : KeyRecords) :
    (change.records records).metaVal = records.metaVal := by
  cases change with
  | keep => rfl
  | forget => exact KeyRecords.metaVal_forget _
  | set ts => rfl

section Deeds

variable {key : Bytes} {change : ExpiryChange} {world after : World} {metaVal : Option Bytes}

/-- A deed, from the metadata that have been written. -/
theorem deed_of_metaVal
    (ledger : after.db.ledger = Function.update world.db.ledger key
      (change.records { world.db.ledger key with metaVal }))
    (expiration : after.expiration = change.memory key world.expiration)
    (marks : MarksKept world.db after.db)
    (life : (world.db.life key).Step (Life.ofMeta metaVal))
    (marked : ∀ version, Life.ofMeta metaVal = .deleted version →
      world.db.life key = .deleted version ∨
        (after.db.get (encodeDeleteKey key version)).isSome)
    (fits : change.Fits (world.db.life key) (Life.ofMeta metaVal)) :
    Deed key change world after := by
  have written : (after.db.ledger key).metaVal = metaVal := by
    rw [ledger, Function.update_self, ExpiryChange.metaVal_records]
  have lives : after.db.life key = Life.ofMeta metaVal := congrArg Life.ofMeta written
  refine ⟨?_, expiration, marks, ?_, ?_, ?_⟩
  · rw [written]
    exact ledger
  · rw [lives]
    exact life
  · rw [lives]
    exact marked
  · rw [lives]
    exact fits

/-- Nothing has happened to the key. -/
theorem deed_same (ledger : after.db.ledger = world.db.ledger)
    (expiration : after.expiration = world.expiration) (marks : MarksKept world.db after.db) :
    Deed key .keep world after := by
  refine @deed_of_metaVal key .keep world after (world.db.ledger key).metaVal ?_ expiration marks
    (.same _) (fun version deleted => Or.inl deleted) (Or.inl rfl)
  rw [ledger]
  exact (Function.update_eq_self key world.db.ledger).symm

theorem Deed.refl (world : World) : Deed key .keep world world :=
  deed_same rfl rfl (MarksKept.refl _)

/-- The other keys are not touched. -/
theorem Deed.ledger_of_ne (deed : Deed key change world after) {other : Bytes}
    (differs : other ≠ key) : after.db.ledger other = world.db.ledger other := by
  rw [deed.ledger, Function.update_of_ne differs]

theorem Deed.ledger_self (deed : Deed key change world after) : after.db.ledger key =
    change.records { world.db.ledger key with metaVal := (after.db.ledger key).metaVal } := by
  conv_lhs => rw [deed.ledger, Function.update_self]

theorem Deed.life_of_ne (deed : Deed key change world after) {other : Bytes}
    (differs : other ≠ key) : after.db.life other = world.db.life other :=
  congrArg (fun records : KeyRecords => Life.ofMeta records.metaVal) (deed.ledger_of_ne differs)

end Deeds

/-! ### The index of expiries -/

/-- The index lists every key under its expiry, and only what is live expires. -/
structure Timely (db : DB) : Prop where
  tidy : ∀ key, (db.ledger key).Tidy
  live : ∀ key, (db.ledger key).expiry ≠ none → (db.life key).IsLive

section Timely

variable {key : Bytes} {change : ExpiryChange} {world after : World}

theorem ExpiryChange.tidy_records {records : KeyRecords} (tidy : records.Tidy) :
    (change.records records).Tidy := by
  cases change with
  | keep => exact tidy
  | forget => exact tidy.forget.1
  | set ts => exact tidy.expire rfl ts

theorem ExpiryChange.expiry_forget {records : KeyRecords} (tidy : records.Tidy) :
    (ExpiryChange.forget.records records).expiry = none := tidy.forget.2

theorem Deed.timely (deed : Deed key change world after) (timely : Timely world.db) :
    Timely after.db := by
  constructor
  · intro other
    by_cases same : other = key
    · subst same
      rw [deed.ledger_self]
      exact ExpiryChange.tidy_records ((timely.tidy other).setMeta _)
    · rw [deed.ledger_of_ne same]
      exact timely.tidy other
  · intro other expires
    by_cases same : other = key
    · subst same
      have fits := deed.fits
      rw [deed.ledger_self] at expires
      cases change with
      | keep =>
          rcases fits with unchanged | live
          · rw [unchanged]
            exact timely.live other expires
          · exact live
      | forget =>
          exact absurd (ExpiryChange.expiry_forget ((timely.tidy other).setMeta _)) expires
      | set ts => exact fits
    · rw [deed.life_of_ne same]
      rw [deed.ledger_of_ne same] at expires
      exact timely.live other expires

end Timely

/-! ### Batches -/

section Batches

variable {key : Bytes} {version : UInt16} {db : DB}

theorem IsElement.head {raw : Bytes} (element : IsElement key version raw) :
    raw.head? = some DataType.item ∨ raw.head? = some DataType.zscore := by
  rcases element with ⟨field, rfl⟩ | ⟨score, field, rfl⟩
  · exact Or.inl rfl
  · exact Or.inr rfl

theorem IsElement.unledgered {raw : Bytes} (element : IsElement key version raw) :
    Unledgered raw := by
  rw [Unledgered]
  rcases element.head with item | score
  · simp only [item, ne_eq, Option.some.injEq]
    decide
  · simp only [score, ne_eq, Option.some.injEq]
    decide

theorem IsElement.not_mark {raw : Bytes} (element : IsElement key version raw) :
    raw.head? ≠ some DataType.delete := by
  rcases element.head with item | score
  · rw [item]
    decide
  · rw [score]
    decide

theorem Elements.ledger {batch : WriteBatch} (elements : Elements key version batch) (db : DB) :
    (batch.apply db).ledger = db.ledger :=
  ledger_of_unledgered fun op mem => (elements op mem).unledgered

theorem Elements.keepsMarks {batch : WriteBatch} (elements : Elements key version batch) :
    ∀ op ∈ batch, op.KeepsMarks := fun op mem family =>
  absurd family (elements op mem).not_mark

theorem keepsMarks_put (key val : Bytes) : (BatchOp.put key val).KeepsMarks :=
  fun _ => ⟨key, val, rfl⟩

theorem keepsMarks_expiry {op : BatchOp} (expiry : IsExpiry op.key) : op.KeepsMarks := by
  intro family
  rcases expiry with ekey | escore
  · rw [ekey] at family
    exact absurd (Option.some_inj.mp family) (by decide)
  · rw [escore] at family
    exact absurd (Option.some_inj.mp family) (by decide)

theorem isExpiry_forgetBatch (db : DB) (key : Bytes) : ∀ op ∈ forgetBatch db key,
    IsExpiry op.key := by
  intro op mem
  rw [forgetBatch] at mem
  cases stored : db.get (encodeEsetKey key) with
  | none =>
      rw [stored] at mem
      cases mem
  | some strScore =>
      rw [stored] at mem
      simp only [List.mem_cons, List.not_mem_nil, or_false] at mem
      rcases mem with rfl | rfl
      · exact Or.inr rfl
      · exact Or.inl rfl

theorem forgotten_eq (db : DB) (key : Bytes) :
    forgotten key (.ofOption (db.get (encodeEsetKey key))) = forgetBatch db key := by
  rw [forgetBatch]
  cases db.get (encodeEsetKey key) with
  | none => rfl
  | some strScore => rfl

theorem ledger_put_deleteKey (db : DB) (key val : Bytes) (version : UInt16) :
    DB.ledger (db.put (encodeDeleteKey key version) val) = db.ledger := by
  refine @ledger_of_unledgered db [.put (encodeDeleteKey key version) val] fun op mem => ?_
  obtain rfl := List.mem_singleton.mp mem
  exact ⟨fun family => absurd (Option.some_inj.mp family) (by decide),
    fun family => absurd (Option.some_inj.mp family) (by decide),
    fun family => absurd (Option.some_inj.mp family) (by decide)⟩

/-- The marks of a deletion, in either order. -/
theorem ledger_marks {marks : WriteBatch} {written : Bytes}
    (either : marks = [.put (encodeDeleteKey key version) [], .put (encodeMetaKey key) written] ∨
      marks = [.put (encodeMetaKey key) written, .put (encodeDeleteKey key version) []]) (db : DB) :
    ((marks.apply db).get (encodeDeleteKey key version)).isSome ∧
      (marks.apply db).ledger = Function.update db.ledger key
        { db.ledger key with metaVal := some written } := by
  have other : encodeDeleteKey key version ≠ encodeMetaKey key := fun same =>
    absurd (List.cons.inj same).1 (by decide)
  rcases either with rfl | rfl
  · refine ⟨?_, ?_⟩
    · refine (congrArg Option.isSome (SortedMap.get_put _ _ _ _)).trans ?_
      rw [if_neg other]
      exact congrArg Option.isSome (SortedMap.get_put_self _ _ _)
    · refine (ledger_put_metaKey _ key written).trans ?_
      rw [BatchOp.apply, ledger_put_deleteKey]
  · refine ⟨congrArg Option.isSome (SortedMap.get_put_self _ _ _), ?_⟩
    exact (ledger_put_deleteKey _ _ _ _).trans (ledger_put_metaKey _ _ _)

theorem keepsMarks_marks {marks : WriteBatch} {written : Bytes}
    (either : marks = [.put (encodeDeleteKey key version) [], .put (encodeMetaKey key) written] ∨
      marks = [.put (encodeMetaKey key) written, .put (encodeDeleteKey key version) []]) :
    ∀ op ∈ marks, op.KeepsMarks := by
  intro op mem
  rcases either with rfl | rfl
  all_goals
    simp only [List.mem_cons, List.not_mem_nil, or_false] at mem
    rcases mem with rfl | rfl
    · exact keepsMarks_put _ _
    · exact keepsMarks_put _ _

end Batches

/-- What a value command may do: the expiry stays as it is, unless the key dies with it. -/
def ValueDeed (key : Bytes) (world after : World) : Prop :=
  Deed key .keep world after ∨
    Deed key .forget world after ∧ ∃ type version,
      world.db.life key = .live type version ∧ after.db.life key = .deleted version

section Values

variable {key : Bytes} {world after : World} {expiry : Option ReadStatus} {batch : WriteBatch}

/-- A batch that fits what is stored. -/
theorem Fits.deed (fits : Fits key (world.db.get (encodeMetaKey key)) expiry batch)
    (read : ∀ answer, expiry = some answer →
      answer = .ofOption (world.db.get (encodeEsetKey key)))
    (written : after.db = batch.apply world.db)
    (expiration : after.expiration =
      if expiry.isSome then world.expiration.delFastKey key else world.expiration) :
    ValueDeed key world after := by
  cases fits with
  | elements opens elements =>
      refine Or.inl (deed_same ?_ expiration ?_)
      · rw [written]
        exact elements.ledger world.db
      · rw [written]
        exact marksKept_apply elements.keepsMarks
  | @stored type version left right metaVal opens live before behind =>
      refine Or.inl (@deed_of_metaVal key .keep world after (some metaVal) ?_ expiration ?_ ?_ ?_ ?_)
      · have put : ∀ start : DB, (WriteBatch.apply (.put (encodeMetaKey key) metaVal :: right)
            start).ledger = DB.ledger (start.put (encodeMetaKey key) metaVal) := fun start =>
          behind.ledger _
        rw [written, WriteBatch.apply_append, put, ledger_put_metaKey, before.ledger]
        rfl
      · rw [written]
        refine marksKept_apply fun op mem => ?_
        rcases List.mem_append.mp mem with mem | mem
        · exact before.keepsMarks op mem
        · rcases List.mem_cons.mp mem with rfl | mem
          · exact keepsMarks_put _ _
          · exact behind.keepsMarks op mem
      · rw [live]
        exact .opened opens
      · rw [live]
        exact fun _ deleted => (by cases deleted)
      · exact Or.inr ⟨type, version, live⟩
  | @deleted type version removed marks metaVal answer live dead elements either =>
      obtain rfl := read answer rfl
      obtain ⟨marked, ledger⟩ := ledger_marks either (WriteBatch.apply removed world.db)
      rw [elements.ledger] at ledger
      rw [forgotten_eq, WriteBatch.apply_append, WriteBatch.apply_append] at written
      have lives : world.db.life key = .live type version := live
      have kept : ∀ start : DB, MarksKept start ((forgetBatch world.db key).apply start) :=
        fun start => marksKept_apply fun op mem => keepsMarks_expiry (isExpiry_forgetBatch _ _ op mem)
      have deed : Deed key .forget world after := by
        refine @deed_of_metaVal key .forget world after (some metaVal) ?_ expiration ?_ ?_ ?_ trivial
        · rw [written, ledger_forgetBatch, ledger, Function.update_self, Function.update_idem]
          rfl
        · rw [written]
          exact ((marksKept_apply elements.keepsMarks).trans
            (marksKept_apply (keepsMarks_marks either))).trans (kept _)
        · rw [lives, dead]
          exact .deleted type version
        · rw [dead]
          rintro _ ⟨⟩
          rw [written]
          exact Or.inr (kept _ _ rfl marked)
      refine Or.inr ⟨deed, type, version, lives, ?_⟩
      refine (congrArg Life.ofMeta ?_).trans dead
      change (after.db.ledger key).metaVal = some metaVal
      rw [written, ledger_forgetBatch, Function.update_self, KeyRecords.metaVal_forget, ledger,
        Function.update_self]

/-- What has been noted is true of the store, up to what has been committed. -/
structure Watch.Holds (key : Bytes) (start : World) (watch : Watch) (world : World) : Prop where
  metadata : ∀ metaVal, watch.metadata = some metaVal →
    start.db.get (encodeMetaKey key) = metaVal
  expiry : ∀ answer, watch.expiry = some answer →
    answer = .ofOption (start.db.get (encodeEsetKey key))
  fits : ∀ batch, watch.committed = some batch →
    watch.dropped = watch.expiry.isSome ∧
      Fits key (start.db.get (encodeMetaKey key)) watch.expiry batch
  db : world.db = (watch.committed.getD []).apply start.db
  expiration : world.expiration =
    if watch.dropped then start.expiration.delFastKey key else start.expiration

theorem ReadStatus.ofOption_ne_error (found : Option Bytes) :
    ReadStatus.ofOption found ≠ .error := by
  cases found with
  | none => exact fun same => (by cases same)
  | some val => exact fun same => (by cases same)

/-- A call that changes nothing. -/
theorem Watch.Holds.same {start world' : World} {watch : Watch} (holds : watch.Holds key start world)
    (db : world'.db = world.db) (expiration : world'.expiration = world.expiration) :
    watch.Holds key start world' :=
  ⟨holds.metadata, holds.expiry, holds.fits, db.trans holds.db, expiration.trans holds.expiration⟩

/-- One call of a command that keeps to the discipline. -/
theorem Watch.Holds.step {careful : Bool} {start : World} {watch : Watch} {op : StorageOp}
    (allowed : watch.allows key op) (holds : watch.Holds key start world) :
    ∃ watch', watch.after key careful op (atomically op world).1 = some watch' ∧
      watch'.Holds key start (atomically op world).2 := by
  cases op with
  | lock name =>
      exact ⟨_, rfl, fun _ seen => (by cases seen), holds.expiry, holds.fits, holds.db,
        holds.expiration⟩
  | unlock name =>
      exact ⟨_, rfl, holds.metadata, holds.expiry, holds.fits, holds.db, holds.expiration⟩
  | get raw =>
      obtain ⟨uncommitted, expiryRead⟩ := allowed
      have current : world.db = start.db := by
        rw [holds.db, uncommitted]
        rfl
      simp only [Watch.after, atomically]
      by_cases dropped : watch.dropped = true
      · rw [if_pos dropped]
        refine ⟨_, rfl, holds.metadata, fun answer same => ?_, fun batch committed => ?_, holds.db,
          holds.expiration⟩
        · rw [← Option.some_inj.mp same, expiryRead dropped, current]
        · exact absurd (uncommitted.symm.trans committed) (Option.some_ne_none batch).symm
      · rw [if_neg dropped]
        have noted : ∀ metaVal, world.db.get raw = metaVal →
            Watch.Holds key start (if raw = encodeMetaKey key then
              { watch with metadata := some metaVal } else watch) world := by
          intro metaVal found
          split_ifs with own
          · refine ⟨fun metaVal' seen => ?_, holds.expiry, holds.fits, holds.db, holds.expiration⟩
            rw [← Option.some_inj.mp seen, ← found, own, current]
          · exact holds
        cases found : world.db.get raw with
        | none => exact ⟨_, rfl, noted none found⟩
        | some val => exact ⟨_, rfl, noted (some val) found⟩
  | snapshot => exact ⟨watch, rfl, holds⟩
  | getAt snapshot raw =>
      refine ⟨watch, ?_, holds⟩
      exact if_neg (ReadStatus.ofOption_ne_error (snapshot.get raw))
  | write batch =>
      obtain ⟨_, uncommitted, paired, metaVal, seen, fits⟩ := allowed
      have current : world.db = start.db := by
        rw [holds.db, uncommitted]
        rfl
      refine ⟨_, rfl, holds.metadata, holds.expiry, fun batch' committed => ?_, ?_,
        holds.expiration⟩
      · rw [← Option.some_inj.mp committed, holds.metadata metaVal seen]
        exact ⟨paired, fits⟩
      · exact congrArg (WriteBatch.apply batch) current
  | timeMs => exact ⟨watch, rfl, holds.same rfl rfl⟩
  | rand => exact ⟨watch, rfl, holds.same rfl rfl⟩
  | insertFastKey name ts => exact allowed.elim
  | delFastKey name =>
      obtain ⟨rfl, _, kept, uncommitted⟩ := allowed
      refine ⟨_, rfl, holds.metadata, holds.expiry, fun batch committed => ?_, holds.db, ?_⟩
      · exact absurd (uncommitted.symm.trans committed) (Option.some_ne_none batch).symm
      · have expiration := holds.expiration
        rw [kept] at expiration
        exact congrArg (fun handler : ExpirationHandler => handler.delFastKey name) expiration
  | firstTimeout => exact ⟨watch, rfl, holds⟩
  | findCursor cursor => exact ⟨watch, rfl, holds⟩
  | newCursor element => exact allowed.elim

/-- A command that keeps to the discipline does one deed, and none to a key of another type. -/
theorem WritesValue.deed {α : Type} {careful : Bool} {type : UInt8} {abort : α → Prop}
    {command : Command α} (writes : WritesValue none key careful type abort command)
    (world : World) :
    ValueDeed key world (command.eval atomically world).2 ∧
      ∀ other version, world.db.life key = .live other version → other ≠ type →
        abort (command.eval atomically world).1 ∧
          (command.eval atomically world).2.db = world.db ∧
          (command.eval atomically world).2.expiration = world.expiration := by
  have begins : ({} : Watch).Holds key world world :=
    ⟨fun _ seen => (by cases seen), fun _ seen => (by cases seen), fun _ seen => (by cases seen),
      rfl, rfl⟩
  have ended := @Program.Follows.eval storage α Watch World (valueMonitor key careful) {} abort
    (Ends type abort false) atomically (fun watch after => watch.Holds key world after)
    (fun _ => False) (fun watch op state allowed holds => by
      obtain ⟨watch', noted, kept⟩ := @Watch.Holds.step key state careful world watch op allowed holds
      exact ⟨fun fails => Option.some_ne_none watch' (noted.symm.trans fails),
        fun watch'' goes => Option.some_inj.mp (noted.symm.trans goes) ▸ kept⟩) (fun _ _ _ => id) command writes world begins
  obtain ⟨last, ends, holds⟩ := ended.resolve_right fun failed => failed.2
  have unchanged : last.committed = none →
      (command.eval atomically world).2.db = world.db ∧
        (command.eval atomically world).2.expiration = world.expiration := by
    intro uncommitted
    have kept : last.dropped = false := by
      rw [Bool.eq_false_iff]
      intro dropped
      have written := ends.dropped dropped
      rw [uncommitted] at written
      cases written
    have db := holds.db
    have expiration := holds.expiration
    rw [uncommitted] at db
    rw [kept] at expiration
    exact ⟨db, expiration⟩
  constructor
  · cases committed : last.committed with
    | none =>
        obtain ⟨db, expiration⟩ := unchanged committed
        exact Or.inl (deed_same (congrArg DB.ledger db) expiration (db ▸ MarksKept.refl _))
    | some batch =>
        obtain ⟨paired, fits⟩ := holds.fits batch committed
        have db := holds.db
        have expiration := holds.expiration
        rw [committed] at db
        rw [paired] at expiration
        exact fits.deed holds.expiry db expiration
  · intro other version live differs
    obtain ⟨failed, uncommitted⟩ := ends.mistyped fun metaVal seen => by
      refine ⟨other, version, ?_, differs⟩
      rw [← holds.metadata metaVal seen]
      exact live
    exact ⟨failed, unchanged uncommitted⟩

end Values

/-- What a value command does, whatever it replies. -/
theorem ValueCommand.deed (floats : Floats) (command : ValueCommand) (world : World) :
    ValueDeed command.key world ((command.run floats).eval atomically world).2 := by
  by_cases unread : command.Unread
  · obtain ⟨reply, same⟩ := command.run_unread floats unread
    rw [same]
    exact Or.inl (Deed.refl world)
  · exact ((command.writesValue floats unread).deed world).1

/-! ### Strings and expiries -/

/-- The updates of a change of expiry. -/
def ExpiryChange.batch (db : DB) (key : Bytes) : ExpiryChange → WriteBatch
  | keep => []
  | forget => forgetBatch db key
  | set ts => expiryBatch db key ts

section Changes

variable {key : Bytes} {change : ExpiryChange} {world after : World}

theorem ExpiryChange.isExpiry_batch (db : DB) (key : Bytes) (change : ExpiryChange) :
    ∀ op ∈ change.batch db key, IsExpiry op.key := by
  cases change with
  | keep => exact fun op mem => (by cases mem)
  | forget => exact isExpiry_forgetBatch db key
  | set ts => exact isExpiry_expiryBatch db key ts

theorem ExpiryChange.keepsMarks_batch (db : DB) (key : Bytes) (change : ExpiryChange) :
    ∀ op ∈ change.batch db key, op.KeepsMarks := fun op mem =>
  keepsMarks_expiry (change.isExpiry_batch db key op mem)

/-- A change of expiry that goes by what is stored. -/
theorem ExpiryChange.ledger_batch {db before : DB}
    (same : (before.ledger key).expiry = (db.ledger key).expiry) :
    ((change.batch db key).apply before).ledger =
      Function.update before.ledger key (change.records (before.ledger key)) := by
  cases change with
  | keep => exact (Function.update_eq_self key before.ledger).symm
  | forget =>
      rw [records, same]
      exact ledger_forgetBatch db before key
  | set ts =>
      rw [records, same]
      exact ledger_expiryBatch db before key ts

/-- Only the expiry is changed. -/
theorem deed_of_change (db : after.db = (change.batch world.db key).apply world.db)
    (expiration : after.expiration = change.memory key world.expiration)
    (fits : change.Fits (world.db.life key) (world.db.life key)) :
    Deed key change world after := by
  refine @deed_of_metaVal key change world after (world.db.ledger key).metaVal ?_ expiration ?_
    (.same _) (fun _ deleted => Or.inl deleted) fits
  · rw [db]
    exact ExpiryChange.ledger_batch rfl
  · rw [db]
    exact marksKept_apply (change.keepsMarks_batch world.db key)

/-- A string is written together with a change of its expiry. -/
theorem deed_of_string {val : Bytes} {version : UInt16}
    (opens : (world.db.life key).Opens DataType.kv version)
    (db : after.db = WriteBatch.apply (.put (encodeMetaKey key) (encodeKvVal val version) ::
      change.batch world.db key) world.db)
    (expiration : after.expiration = change.memory key world.expiration) :
    Deed key change world after ∧ after.db.life key = .live DataType.kv version := by
  have lives := life_encodeKvVal val version
  have split : after.db = (change.batch world.db key).apply
      (world.db.put (encodeMetaKey key) (encodeKvVal val version)) := db
  have ledger : after.db.ledger = Function.update world.db.ledger key (change.records
      { world.db.ledger key with metaVal := some (encodeKvVal val version) }) := by
    have same : ((DB.ledger (world.db.put (encodeMetaKey key) (encodeKvVal val version))) key).expiry =
        (world.db.ledger key).expiry := by
      rw [ledger_put_metaKey, Function.update_self]
    rw [split, ExpiryChange.ledger_batch same, ledger_put_metaKey, Function.update_self,
      Function.update_idem]
  constructor
  · refine deed_of_metaVal ledger expiration ?_ ?_ ?_ ?_
    · rw [db]
      exact marksKept_apply (List.forall_mem_cons.mpr
        ⟨keepsMarks_put _ _, change.keepsMarks_batch world.db key⟩)
    · rw [lives]
      exact .opened opens
    · rw [lives]
      exact fun _ deleted => (by cases deleted)
    · rw [lives]
      cases change with
      | keep => exact Or.inr ⟨_, _, rfl⟩
      | forget => trivial
      | set ts => exact ⟨_, _, rfl⟩
  · refine (congrArg (fun records : KeyRecords => Life.ofMeta records.metaVal)
      (congrFun ledger key)).trans ?_
    rw [Function.update_self, ExpiryChange.metaVal_records]
    exact lives

/-- A key is marked deleted, whatever has been put in the place of its metadata before. -/
theorem deed_of_marks {type : UInt8} {version : UInt16} {first : WriteBatch} {dead : Bytes}
    (live : world.db.life key = .live type version)
    (dies : Life.ofMeta (some dead) = .deleted version)
    (before : first = [] ∨ ∃ written, first = [.put (encodeMetaKey key) written])
    (db : after.db = WriteBatch.apply (first ++ [.put (encodeMetaKey key) dead,
      .put (encodeDeleteKey key version) []] ++ forgetBatch world.db key) world.db)
    (expiration : after.expiration = world.expiration.delFastKey key) :
    Deed key .forget world after ∧ after.db.life key = .deleted version := by
  obtain ⟨marked, marks⟩ := @ledger_marks key version _ dead (Or.inr rfl) (first.apply world.db)
  have overwritten : (WriteBatch.apply [.put (encodeMetaKey key) dead,
      .put (encodeDeleteKey key version) []] (first.apply world.db)).ledger =
        Function.update world.db.ledger key { world.db.ledger key with metaVal := some dead } := by
    rw [marks]
    rcases before with rfl | ⟨written, rfl⟩
    · rfl
    · have put : DB.ledger (WriteBatch.apply [.put (encodeMetaKey key) written] world.db) = _ :=
        ledger_put_metaKey world.db key written
      rw [put, Function.update_self, Function.update_idem]
  rw [WriteBatch.apply_append, WriteBatch.apply_append] at db
  have kept : ∀ start : DB, MarksKept start ((forgetBatch world.db key).apply start) :=
    fun start => marksKept_apply fun op mem => keepsMarks_expiry (isExpiry_forgetBatch _ _ op mem)
  have ledger : after.db.ledger = Function.update world.db.ledger key
      (ExpiryChange.forget.records { world.db.ledger key with metaVal := some dead }) := by
    rw [db, ledger_forgetBatch, overwritten, Function.update_self, Function.update_idem]
    rfl
  constructor
  · refine @deed_of_metaVal key .forget world after (some dead) ledger expiration ?_ ?_ ?_ trivial
    · have keeps : ∀ op ∈ first, op.KeepsMarks := by
        rcases before with rfl | ⟨written, rfl⟩
        · exact fun op mem => (by cases mem)
        · intro op mem
          obtain rfl := List.mem_singleton.mp mem
          exact keepsMarks_put _ _
      rw [db]
      exact ((marksKept_apply keeps).trans (marksKept_apply
        (keepsMarks_marks (Or.inr rfl)))).trans (kept _)
    · rw [live, dies]
      exact .deleted type version
    · rw [dies]
      rintro _ ⟨⟩
      rw [db]
      exact Or.inr (kept _ _ rfl marked)
  · refine (congrArg (fun records : KeyRecords => Life.ofMeta records.metaVal)
      (congrFun ledger key)).trans ?_
    rw [Function.update_self, ExpiryChange.metaVal_records]
    exact dies

end Changes

end Vcdb
