import Vcdb.Keyspace.Ledger
import Vcdb.Lib.Monitor
import Vcdb.Storage.Kv
import Vcdb.Storage.List

/-!
# Writing to the value of a key

A command that writes to a value holds the record mutex of its key, reads the metadata and then
items, and commits one batch: elements at the version it has opened, with or without metadata of
that version, or the marks of a deletion together with the end of the expiry.  A read that fails
ends it before it writes anything, up to the read of an expiry that is being forgotten.
-/

namespace Vcdb

/-- Keys of the items and score entries of a key at one version. -/
def IsElement (key : Bytes) (version : UInt16) (raw : Bytes) : Prop :=
  (∃ field, raw = encodeKeyInternal DataType.item key field version) ∨
    ∃ score field, raw = encodeZscoreKey key field score version

def Elements (key : Bytes) (version : UInt16) (batch : WriteBatch) : Prop :=
  ∀ op ∈ batch, IsElement key version op.key

/-- The updates that end an expiry that has been read. -/
def forgotten (key : Bytes) : ReadStatus → WriteBatch
  | .ok strScore =>
      [.delete (encodeEscoreKey key (readHostOrder64 strScore)), .delete (encodeEsetKey key)]
  | .notFound | .error => []

/-- Batches that fit what has been read: the metadata and, once the expiry has been dropped from
memory, what was stored of it. -/
inductive Fits (key : Bytes) (metaVal : Option Bytes) : Option ReadStatus → WriteBatch → Prop
  | elements {type : UInt8} {version : UInt16} {batch : WriteBatch}
      (opens : (Life.ofMeta metaVal).Opens type version) (elements : Elements key version batch) :
      Fits key metaVal none batch
  | stored {type : UInt8} {version : UInt16} {left right : WriteBatch} {written : Bytes}
      (opens : (Life.ofMeta metaVal).Opens type version)
      (live : Life.ofMeta (some written) = .live type version)
      (before : Elements key version left) (behind : Elements key version right) :
      Fits key metaVal none (left ++ .put (encodeMetaKey key) written :: right)
  | deleted {type : UInt8} {version : UInt16} {removed marks : WriteBatch} {written : Bytes}
      {answer : ReadStatus} (live : Life.ofMeta metaVal = .live type version)
      (dead : Life.ofMeta (some written) = .deleted version)
      (elements : Elements key version removed)
      (either : marks = [.put (encodeDeleteKey key version) [], .put (encodeMetaKey key) written] ∨
        marks = [.put (encodeMetaKey key) written, .put (encodeDeleteKey key version) []]) :
      Fits key metaVal (some answer) (removed ++ marks ++ forgotten key answer)

/-- What a command has seen and done. -/
structure Watch where
  locked : Bool := false
  /-- The metadata, once it has been read. -/
  metadata : Option (Option Bytes) := none
  /-- Whether the key has been dropped from the memory of expiries. -/
  dropped : Bool := false
  /-- The answer to the read of the expiry that followed. -/
  expiry : Option ReadStatus := none
  committed : Option WriteBatch := none

namespace Watch

def allows (key : Bytes) (watch : Watch) : StorageOp → Prop
  | .lock name => name = key ∧ watch.locked = false
  | .unlock name => name = key ∧ watch.locked = true
  | .get raw => watch.committed = none ∧ (watch.dropped = true → raw = encodeEsetKey key)
  | .write batch => watch.locked = true ∧ watch.committed = none ∧
      watch.dropped = watch.expiry.isSome ∧
      ∃ metaVal, watch.metadata = some metaVal ∧ Fits key metaVal watch.expiry batch
  | .delFastKey name => name = key ∧ watch.locked = true ∧ watch.dropped = false ∧
      watch.committed = none
  | .insertFastKey _ _ | .newCursor _ => False
  | _ => True

/-- A careless command goes on when the read of an item has failed. -/
def after (key : Bytes) (careful : Bool) (watch : Watch) :
    (op : StorageOp) → op.Answer → Option Watch
  -- What was read before the mutex was held does not count.
  | .lock _, _ => some { watch with locked := true, metadata := none }
  | .unlock _, _ => some { watch with locked := false }
  | .get raw, answer =>
      if watch.dropped then some { watch with expiry := some answer }
      else
        match answer with
        | .error => if raw = encodeMetaKey key ∨ careful then none else some watch
        | .notFound =>
            some (if raw = encodeMetaKey key then { watch with metadata := some none } else watch)
        | .ok val =>
            some (if raw = encodeMetaKey key then { watch with metadata := some (some val) }
              else watch)
  | .getAt _ _, answer => if answer = .error then none else some watch
  | .write batch, written => if written then some { watch with committed := some batch } else none
  | .delFastKey _, _ => some { watch with dropped := true }
  | _, _ => some watch

/-- Operations that change neither the store nor the memory of expiries nor the cursors. -/
def Quiet : StorageOp → Prop
  | .write _ | .insertFastKey _ _ | .delFastKey _ | .newCursor _ => False
  | _ => True

/-- No metadata has been read that a command of the type can open. -/
def Mistyped (watch : Watch) (type : UInt8) : Prop :=
  ∀ metaVal, watch.metadata = some metaVal →
    ∃ other version, Life.ofMeta metaVal = .live other version ∧ other ≠ type

end Watch

/-- The discipline of the commands that write to the value of a key. -/
def valueMonitor (key : Bytes) (careful : Bool) : Monitor storage Watch where
  allows := Watch.allows key
  after := Watch.after key careful
  idle := Watch.Quiet

/-- The end of a command, or of its part that holds the mutex: no expiry has been dropped without
a commit, and a key of another type is an error. -/
structure Ends {α : Type} (type : UInt8) (abort : α → Prop) (locked : Bool) (last : Watch)
    (result : α) : Prop where
  mutex : last.locked = locked
  dropped : last.dropped = true → last.committed.isSome
  mistyped : last.Mistyped type → abort result ∧ last.committed = none

/-- A command that writes to the value of a key, with its way to report an error, and what has been
read of the metadata already. -/
def WritesValue {α : Type} (metadata : Option (Option Bytes)) (key : Bytes) (careful : Bool)
    (type : UInt8) (abort : α → Prop) (command : Command α) : Prop :=
  command.Follows (valueMonitor key careful) abort (Ends type abort false) { metadata }

/-- The part of such a command that holds the mutex and has read the metadata. -/
def WritesOpened {α : Type} (key : Bytes) (careful : Bool) (type : UInt8) (abort : α → Prop)
    (metaVal : Option Bytes) (command : Command α) : Prop :=
  command.Follows (valueMonitor key careful) abort (Ends type abort true)
    { locked := true, metadata := some metaVal }

/-- The end of a command that only reads. -/
structure Looked {α : Type} (type : UInt8) (abort : α → Prop) (locked : Bool) (last : Watch)
    (result : α) : Prop where
  seen : ∃ metadata, last = { locked, metadata }
  mistyped : last.Mistyped type → abort result

/-- A command that reads the value of a key. -/
def ReadsValue {α : Type} (key : Bytes) (careful : Bool) (type : UInt8) (abort : α → Prop)
    (command : Command α) : Prop :=
  command.Follows (valueMonitor key careful) abort (Looked type abort false) {}

/-- A part of such a command that only reads items. -/
def LooksUp {α : Type} (key : Bytes) (careful : Bool) (abort post : α → Prop)
    (command : Command α) : Prop :=
  ∀ watch : Watch, watch.dropped = false → watch.committed = none →
    command.Follows (valueMonitor key careful) abort
      (fun last result => last = watch ∧ post result) watch

section Rules

variable {α β γ : Type} {key : Bytes} {careful : Bool} {type : UInt8} {version : UInt16}
  {metaVal : Option Bytes} {abort : α → Prop} {abort' : β → Prop} {command : Command α}
  {next : α → Command β} {metadata : Option (Option Bytes)}

/-- A metadata record is of one type. -/
theorem Life.Opens.not_mistyped {watch : Watch} (opens : (Life.ofMeta metaVal).Opens type version)
    (seen : watch.metadata = some metaVal) : ¬watch.Mistyped type := by
  intro mistyped
  obtain ⟨other, version', live, differs⟩ := mistyped metaVal seen
  rw [live] at opens
  exact differs opens.1.symm

/-- A value that needs no more calls. -/
theorem follows_of_pure {note : Watch} {post : Watch → α → Prop} {answer : α → Prop}
    (pure : command.Ensures (fun _ => False) answer)
    (later : ∀ value, answer value → post note value) :
    command.Follows (valueMonitor key careful) abort post note := by
  cases command with
  | done value => exact later value pure
  | call op next => exact pure.1.elim

theorem ensures_of_pure {allowed : StorageOp → Prop} {answer answer' : α → Prop}
    (pure : command.Ensures (fun _ => False) answer)
    (later : ∀ value, answer value → answer' value) :
    @Program.Ensures storage α allowed answer' command := by
  cases command with
  | done value => exact later value pure
  | call op next => exact pure.1.elim

theorem Ends.map {locked : Bool} {last : Watch} {result : α} {result' : β}
    (ends : Ends type abort locked last result) (failed : abort result → abort' result') :
    Ends type abort' locked last result' :=
  ⟨ends.mutex, ends.dropped, fun mistyped => (ends.mistyped mistyped).imp_left failed⟩

/-- A result that is turned into another one. -/
theorem WritesOpened.map (writes : WritesOpened key careful type abort metaVal command)
    (answers : ∀ value, (next value).Ensures (fun _ => False) fun result =>
      abort value → abort' result) :
    WritesOpened key careful type abort' metaVal (command >>= next) :=
  Program.Follows.bind writes
    (fun _ value ends => follows_of_pure (answers value) fun _ failed => ends.map failed)
    fun value failed => ensures_of_pure (answers value) fun _ reported => reported failed

theorem WritesValue.map (writes : WritesValue metadata key careful type abort command)
    (answers : ∀ value, (next value).Ensures (fun _ => False) fun result =>
      abort value → abort' result) :
    WritesValue metadata key careful type abort' (command >>= next) :=
  Program.Follows.bind writes
    (fun _ value ends => follows_of_pure (answers value) fun _ failed => ends.map failed)
    fun value failed => ensures_of_pure (answers value) fun _ reported => reported failed

/-- The part that holds the mutex. -/
theorem follows_recordKeyLock {post : Watch → α → Prop}
    (follows : command.Follows (valueMonitor key careful) abort
      (fun last result => last.locked = true ∧ post { last with locked := false } result)
      { locked := true }) :
    (recordKeyLock key command).Follows (valueMonitor key careful) abort post { metadata } := by
  refine (Program.follows_call _ _).mpr ⟨⟨rfl, rfl⟩, fun _ => ⟨fun fails => (by cases fails), ?_⟩⟩
  rintro _ ⟨⟩
  refine follows.bind (fun last value ends => ?_) fun value failed => ⟨trivial, fun _ => failed⟩
  refine (Program.follows_call _ _).mpr ⟨⟨rfl, ends.1⟩, fun _ => ⟨fun fails => (by cases fails),
    ?_⟩⟩
  rintro _ ⟨⟩
  exact ends.2

theorem writesValue_lock
    (writes : command.Follows (valueMonitor key careful) abort (Ends type abort true)
      { locked := true }) :
    WritesValue metadata key careful type abort (recordKeyLock key command) :=
  follows_recordKeyLock (writes.mono
    (fun _ _ ends => ⟨ends.mutex, rfl, ends.dropped, ends.mistyped⟩) fun _ => id)

/-- A command that ends before it holds the mutex. -/
theorem writesValue_done {value : α} (unread : abort value) :
    WritesValue metadata key careful type abort (Program.done value) :=
  ⟨rfl, fun dropped => (by cases dropped), fun _ => ⟨unread, rfl⟩⟩

theorem writesOpened_failed {value : α} (failed : abort value) :
    WritesOpened key careful type abort metaVal (Program.done value) :=
  ⟨rfl, fun dropped => (by cases dropped), fun _ => ⟨failed, rfl⟩⟩

theorem writesOpened_done (opens : (Life.ofMeta metaVal).Opens type version) (value : α) :
    WritesOpened key careful type abort metaVal (Program.done value) :=
  ⟨rfl, fun dropped => (by cases dropped), fun mistyped => absurd mistyped (opens.not_mistyped rfl)⟩

/-- Items are read before anything is written. -/
theorem writesOpened_looksUp {post : α → Prop} (looks : LooksUp key careful abort post command)
    (later : ∀ value, post value → WritesOpened key careful type abort' metaVal (next value))
    (failed : ∀ value, abort value → (next value).Ensures Watch.Quiet abort') :
    WritesOpened key careful type abort' metaVal (command >>= next) := by
  refine Program.Follows.bind (looks _ rfl rfl) (fun last value ends => ?_) failed
  obtain ⟨rfl, met⟩ := ends
  exact later value met

theorem looksUp_done {post : α → Prop} {value : α} (met : post value) :
    LooksUp key careful abort post (Program.done value) := fun _ _ _ => ⟨rfl, met⟩

theorem LooksUp.bind {post : α → Prop} {post' : β → Prop} (looks : LooksUp key careful abort post command)
    (later : ∀ value, post value → LooksUp key careful abort' post' (next value))
    (failed : ∀ value, abort value → (next value).Ensures Watch.Quiet abort') :
    LooksUp key careful abort' post' (command >>= next) := by
  intro watch kept fresh
  refine Program.Follows.bind (looks watch kept fresh) (fun last value ends => ?_) failed
  obtain ⟨rfl, met⟩ := ends
  exact later value met last kept fresh

/-- The read of an item. -/
theorem looksUp_dbGet {raw : Bytes} (other : raw ≠ encodeMetaKey key) :
    LooksUp key careful (fun status => careful = true ∧ status = ReadStatus.error) (fun _ => True)
      (dbGet raw) := by
  intro watch kept fresh
  refine (Program.follows_call _ _).mpr ⟨⟨fresh, fun dropped => ?_⟩, fun answer => ?_⟩
  · rw [kept] at dropped
    cases dropped
  · simp only [valueMonitor, Watch.after, kept, Bool.false_eq_true, if_false, other,
      false_or]
    cases answer with
    | error =>
        by_cases strict : careful = true
        · simp only [if_pos strict]
          exact ⟨fun _ => ⟨strict, rfl⟩, fun _ goes => (by cases goes)⟩
        · simp only [if_neg strict]
          exact ⟨fun fails => (Option.some_ne_none _ fails).elim,
            fun _ goes => ⟨(Option.some_inj.mp goes).symm, trivial⟩⟩
    | notFound => exact ⟨fun fails => (Option.some_ne_none _ fails).elim,
        fun _ goes => ⟨(Option.some_inj.mp goes).symm, trivial⟩⟩
    | ok val => exact ⟨fun fails => (Option.some_ne_none _ fails).elim,
        fun _ goes => ⟨(Option.some_inj.mp goes).symm, trivial⟩⟩

theorem looksUp_getSnapshot (abort : DB → Prop) :
    LooksUp key careful abort (fun _ => True) getSnapshot := fun _ _ _ =>
  (Program.follows_call _ _).mpr ⟨trivial, fun _ => ⟨fun fails => (by cases fails),
    fun _ goes => ⟨(Option.some_inj.mp goes).symm, trivial⟩⟩⟩

theorem Looked.ends {locked : Bool} {last : Watch} {result : α}
    (looked : Looked type abort locked last result) : Ends type abort locked last result := by
  obtain ⟨_, rfl⟩ := looked.seen
  exact ⟨rfl, fun dropped => (by cases dropped), fun other => ⟨looked.mistyped other, rfl⟩⟩

/-- A reader writes nothing. -/
theorem ReadsValue.writesValue (reads : ReadsValue key careful type abort command) :
    WritesValue none key careful type abort command :=
  reads.mono (fun _ _ => Looked.ends) fun _ => id

theorem readsValue_lock
    (reads : command.Follows (valueMonitor key careful) abort (Looked type abort true)
      { locked := true }) :
    ReadsValue key careful type abort (recordKeyLock key command) := by
  refine follows_recordKeyLock (reads.mono (fun last result looked => ?_) fun _ => id)
  obtain ⟨metadata, rfl⟩ := looked.seen
  exact ⟨rfl, ⟨metadata, rfl⟩, looked.mistyped⟩

/-- A command that ends before it has read anything. -/
theorem readsValue_done {value : α} (unread : abort value) :
    ReadsValue key careful type abort (Program.done value) := ⟨⟨none, rfl⟩, fun _ => unread⟩

/-- Items are read behind the metadata. -/
theorem ReadsValue.bind (reads : ReadsValue key careful type abort command)
    (later : ∀ value, LooksUp key careful abort' (fun result => abort value → abort' result)
      (next value))
    (failed : ∀ value, abort value → (next value).Ensures Watch.Quiet abort') :
    ReadsValue key careful type abort' (command >>= next) := by
  refine Program.Follows.bind reads (fun last value looked => ?_) failed
  obtain ⟨metadata, rfl⟩ := looked.seen
  refine (later value _ rfl rfl).mono (fun last result ends => ?_) fun _ => id
  obtain ⟨rfl, reported⟩ := ends
  exact ⟨⟨metadata, rfl⟩, fun other => reported (looked.mistyped other)⟩

/-- A result that is turned into another one. -/
theorem ReadsValue.map (reads : ReadsValue key careful type abort command)
    (answers : ∀ value, (next value).Ensures (fun _ => False) fun result =>
      abort value → abort' result) :
    ReadsValue key careful type abort' (command >>= next) :=
  reads.bind (fun value _ _ _ => follows_of_pure (answers value) fun _ reported =>
    ⟨rfl, reported⟩) fun value failed => ensures_of_pure (answers value) fun _ reported =>
      reported failed

/-- A batch that fits is committed. -/
theorem writesOpened_commitBatch {batch : WriteBatch} {next : Bool → Command β}
    (fits : Fits key metaVal none batch) (opens : (Life.ofMeta metaVal).Opens type version)
    (written : (next true).Ensures (fun _ => False) fun _ => True)
    (failed : (next false).Ensures Watch.Quiet abort') :
    WritesOpened key careful type abort' metaVal (commitBatch batch >>= next) := by
  refine (Program.follows_call _ _).mpr ⟨⟨rfl, rfl, rfl, metaVal, rfl, fits⟩, fun answer => ?_⟩
  cases answer with
  | false => exact ⟨fun _ => failed, fun _ goes => (by cases goes)⟩
  | true =>
      refine ⟨fun fails => (by cases fails), ?_⟩
      rintro _ ⟨⟩
      exact follows_of_pure written fun value _ =>
        ⟨rfl, fun dropped => (by cases dropped), fun mistyped =>
          absurd mistyped (opens.not_mistyped rfl)⟩

end Rules

/-! ### Elements -/

section Batches

variable {key : Bytes} {version : UInt16}

theorem Elements.nil : Elements key version [] := by simp [Elements]

theorem Elements.append {first second : WriteBatch} (left : Elements key version first)
    (right : Elements key version second) : Elements key version (first ++ second) := fun op mem =>
  (List.mem_append.mp mem).elim (left op) (right op)

theorem Elements.cons {op : BatchOp} {batch : WriteBatch} (element : IsElement key version op.key)
    (rest : Elements key version batch) : Elements key version (op :: batch) :=
  List.forall_mem_cons.mpr ⟨element, rest⟩

theorem isElement_item (key field : Bytes) (version : UInt16) :
    IsElement key version (encodeKeyInternal DataType.item key field version) :=
  Or.inl ⟨field, rfl⟩

theorem isElement_zscore (key field : Bytes) (score : Double) (version : UInt16) :
    IsElement key version (encodeZscoreKey key field score version) :=
  Or.inr ⟨score, field, rfl⟩

/-- No item is metadata. -/
theorem encodeKeyInternal_ne_metaKey (key field other : Bytes) (version : UInt16) :
    encodeKeyInternal DataType.item key field version ≠ encodeMetaKey other := fun same =>
  absurd (List.cons.inj same).1 (by decide)

end Batches

/-! ### Metadata -/

/-- What a reader of metadata tells about its key. -/
structure MetaRead (type : UInt8) (metaVal : Option Bytes) (ret : Int) (version : UInt16)
    (length : UInt64) : Prop where
  opens : 0 ≤ ret → (Life.ofMeta metaVal).Opens type version
  /-- A collection with elements is there already. -/
  live : 0 ≤ ret → length ≠ 0 ∨ 0 < ret → Life.ofMeta metaVal = .live type version

section Metadata

variable {β : Type} {key : Bytes} {careful locked : Bool} {type : UInt8} {version : UInt16}
  {metaVal : Option Bytes} {abort : β → Prop} {post : Watch → β → Prop}

theorem MetaRead.failed {length : UInt64} {ret : Int} (negative : ret < 0) :
    MetaRead type metaVal ret version length :=
  ⟨fun success => absurd negative (not_lt.mpr success),
    fun success => absurd negative (not_lt.mpr success)⟩

/-- A command that replies to what it has read of the metadata. -/
theorem MetaRead.writesOpened_reply {α : Type} {length : UInt64} {ret : Int} {abort : α → Prop}
    (read : MetaRead type metaVal ret version length) (careful : Bool) (result : α)
    (failed : ret < 0 → abort result) :
    WritesOpened key careful type abort metaVal (Program.done result) := by
  by_cases negative : ret < 0
  · exact writesOpened_failed (failed negative)
  · exact writesOpened_done (read.opens (not_lt.mp negative)) result

/-- A command that goes on to read items. -/
theorem MetaRead.looked {α : Type} {length : UInt64} {ret : Int} {abort : α → Prop}
    {command : Command α} (read : MetaRead type metaVal ret version length)
    (looks : LooksUp key careful abort (fun result => ret < 0 → abort result) command) :
    command.Follows (valueMonitor key careful) abort (Looked type abort locked)
      { locked, metadata := some metaVal } := by
  refine (looks _ rfl rfl).mono (fun last result ends => ?_) fun _ => id
  obtain ⟨rfl, reported⟩ := ends
  refine ⟨⟨some metaVal, rfl⟩, fun other => reported ?_⟩
  by_contra success
  exact (read.opens (not_lt.mp success)).not_mistyped rfl other

/-- Reading the metadata of the key, found or not. -/
theorem follows_dbGet_metaKey {next : ReadStatus → Command β}
    (later : ∀ metaVal, (next (.ofOption metaVal)).Follows (valueMonitor key careful) abort post
      { locked, metadata := some metaVal })
    (failed : (next .error).Ensures Watch.Quiet abort) :
    (dbGet (encodeMetaKey key) >>= next).Follows (valueMonitor key careful) abort post
      { locked } := by
  refine (Program.follows_call _ _).mpr ⟨⟨rfl, fun dropped => (by cases dropped)⟩, fun answer => ?_⟩
  simp only [valueMonitor, Watch.after, Bool.false_eq_true, if_false, if_true]
  cases answer with
  | error => exact ⟨fun _ => failed, fun _ goes => (by cases goes)⟩
  | notFound =>
      refine ⟨fun fails => (by cases fails), ?_⟩
      rintro _ ⟨⟩
      exact later none
  | ok val =>
      refine ⟨fun fails => (by cases fails), ?_⟩
      rintro _ ⟨⟩
      exact later (some val)

theorem life_of_decoded {metaVal : Bytes} {mv : MetaVal}
    (decodes : MetaVal.decodeMetaVal metaVal = .ok mv) :
    Life.ofMeta (some metaVal) =
      if mv.del = keyDeleteMask then .deleted mv.version else .live mv.type mv.version := by
  rw [MetaVal.decodeMetaVal] at decodes
  cases decoded : decodeMetaHeader metaVal with
  | none =>
      rw [decoded] at decodes
      cases decodes
  | some found =>
      obtain ⟨header, rest⟩ := found
      rw [life_of_header decoded]
      rw [decoded] at decodes
      simp only at decodes
      split_ifs at decodes with deleted
      · cases decodes
        rfl
      · cases read : Decoder.readUint64 rest with
        | none =>
            rw [read] at decodes
            cases decodes
        | some length =>
            rw [read] at decodes
            cases decodes
            rfl

theorem MetaVal.decodeMetaVal_error {metaVal : Bytes} {code : Int}
    (fails : MetaVal.decodeMetaVal metaVal = .error code) : code < 0 := by
  rw [MetaVal.decodeMetaVal] at fails
  cases decoded : decodeMetaHeader metaVal with
  | none =>
      rw [decoded] at fails
      cases fails
      decide
  | some found =>
      obtain ⟨header, rest⟩ := found
      rw [decoded] at fails
      simp only at fails
      split_ifs at fails
      · cases fails
        decide
      · cases read : Decoder.readUint64 rest with
        | none =>
            rw [read] at fails
            cases fails
            decide
        | some length =>
            rw [read] at fails
            cases fails

/-- The metadata of a hash, a set or a sorted set. -/
theorem follows_getMetaVal {freshType : UInt8} {next : Int × MetaVal → Command β}
    (later : ∀ metaVal ret mv, MetaRead type metaVal ret mv.version mv.length →
      (next (ret, mv)).Follows (valueMonitor key careful) abort post
        { locked, metadata := some metaVal })
    (failed : ∀ mv, (next (storageErr, mv)).Ensures Watch.Quiet abort) :
    (getMetaVal type freshType (encodeMetaKey key) >>= next).Follows (valueMonitor key careful)
      abort post { locked } := by
  rw [getMetaVal, Program.bind_assoc]
  refine follows_dbGet_metaKey (fun metaVal => ?_) (failed _)
  cases metaVal with
  | none => exact later none 0 _ ⟨fun _ => rfl, fun _ either =>
      either.elim (absurd rfl) fun positive => absurd positive (lt_irrefl 0)⟩
  | some metaVal =>
      simp only [ReadStatus.ofOption]
      cases decodes : MetaVal.decodeMetaVal metaVal with
      | error code => exact later _ code _ (.failed (MetaVal.decodeMetaVal_error decodes))
      | ok mv =>
          have life := life_of_decoded decodes
          simp only
          by_cases deleted : mv.del = keyDeleteMask
          · rw [if_pos deleted] at life
            rw [if_pos deleted]
            refine later _ 0 _ ⟨fun _ => ?_, fun _ either =>
              either.elim (absurd rfl) fun positive => absurd positive (lt_irrefl 0)⟩
            rw [life]
            rfl
          · rw [if_neg deleted] at life
            rw [if_neg deleted]
            by_cases other : mv.type ≠ type
            · rw [if_pos other]
              exact later _ wrongTypeErr mv (.failed (by decide))
            · rw [if_neg other]
              rw [not_not] at other
              refine later _ 1 mv ⟨fun _ => ?_, fun _ _ => ?_⟩
              · rw [life]
                exact ⟨other.symm, rfl⟩
              · rw [life, other]

theorem life_encodeMetaVal (type : UInt8) (length : UInt64) (version : UInt16) :
    Life.ofMeta (some (encodeMetaValInternal type length version keyEnabledMask)) =
        .live type version ∧
      Life.ofMeta (some (encodeMetaValInternal type length version keyDeleteMask)) =
        .deleted version := by
  constructor
  · rw [life_of_header (decodeMetaHeader_metaVal type length version _ (Or.inr rfl))]
    exact if_neg enabled_ne_delete
  · rw [life_of_header (decodeMetaHeader_metaVal type length version _ (Or.inl rfl))]
    exact if_pos rfl

/-- A collection is marked deleted: the expiry is dropped from memory, read and forgotten, and the
batch is committed. -/
theorem writesOpened_delete {removed marks : WriteBatch} {written : Bytes}
    {next : Bool → Command β} (live : Life.ofMeta metaVal = .live type version)
    (dead : Life.ofMeta (some written) = .deleted version)
    (elements : Elements key version removed)
    (either : marks = [.put (encodeDeleteKey key version) [], .put (encodeMetaKey key) written] ∨
      marks = [.put (encodeMetaKey key) written, .put (encodeDeleteKey key version) []])
    (done : (next true).Ensures (fun _ => False) fun _ => True)
    (failed : (next false).Ensures Watch.Quiet abort) :
    WritesOpened key careful type abort metaVal
      (cancelExpiration key (removed ++ marks) >>= fun cancelled =>
        commitBatch cancelled.2 >>= next) := by
  have opens : (Life.ofMeta metaVal).Opens type version := by
    rw [live]
    exact ⟨rfl, rfl⟩
  have commits : ∀ answer : ReadStatus,
      (commitBatch (removed ++ marks ++ forgotten key answer) >>= next).Follows (valueMonitor key careful)
        abort (Ends type abort true) { locked := true, metadata := some metaVal, dropped := true,
                                       expiry := some answer } := by
    intro answer
    refine (Program.follows_call _ _).mpr ⟨⟨rfl, rfl, rfl, metaVal, rfl,
      .deleted live dead elements either⟩, fun written => ?_⟩
    cases written with
    | false => exact ⟨fun _ => failed, fun _ goes => (by cases goes)⟩
    | true =>
        refine ⟨fun fails => (by cases fails), ?_⟩
        rintro _ ⟨⟩
        exact follows_of_pure done fun value _ =>
          ⟨rfl, fun _ => rfl, fun mistyped => absurd mistyped (opens.not_mistyped rfl)⟩
  rw [cancelExpiration, Program.bind_assoc]
  refine (Program.follows_call _ _).mpr ⟨⟨rfl, rfl, rfl, rfl⟩, fun _ => ⟨fun fails => (by cases fails),
    ?_⟩⟩
  rintro _ ⟨⟩
  rw [edelOne, Program.bind_assoc, eget, Program.bind_assoc]
  refine (Program.follows_call _ _).mpr ⟨⟨rfl, fun _ => rfl⟩, fun answer => ⟨fun fails =>
    (by cases fails), ?_⟩⟩
  rintro _ ⟨⟩
  have same := commits answer
  cases answer with
  | error =>
      rw [forgotten, List.append_nil] at same
      exact same
  | notFound =>
      rw [forgotten, List.append_nil] at same
      exact same
  | ok strScore => exact same

/-- The commit of a change of length, whatever the change is. -/
theorem writesOpened_commitSize {batch : WriteBatch} {mv : MetaVal} {ret : Int}
    (elements : Elements key mv.version batch)
    (read : MetaRead type metaVal ret mv.version mv.length) (success : 0 ≤ ret) (incr : Int) :
    WritesOpened key careful type (· < 0) metaVal
      (commitSize (incrSize type key batch (encodeMetaKey key) mv incr)) := by
  have opens := read.opens success
  have answered : ∀ code : Int, (if true = true then
      (pure (if code = 0 then 0 else 1) : Command Int) else pure storageErr).Ensures
        (fun _ => False) fun _ => True := fun _ => trivial
  have unwritten : ∀ code : Int, (if false = true then
      (pure (if code = 0 then 0 else 1) : Command Int) else pure storageErr).Ensures
        Watch.Quiet (· < 0) := fun _ => (by decide : storageErr < 0)
  have kept : ∀ code : Int, WritesOpened key careful type (· < 0) metaVal
      (commitSize (return (code, batch))) := by
    intro code
    rw [commitSize, Program.pure_eq_done, Program.done_bind]
    by_cases failed : code < 0
    · simp only [if_pos failed]
      exact writesOpened_failed failed
    · simp only [if_neg failed]
      exact writesOpened_commitBatch (.elements opens elements) opens (answered code)
        (unwritten code)
  have resized : ∀ length, WritesOpened key careful type (· < 0) metaVal (commitSize (return (1, batch ++
      [.put (encodeMetaKey key) (encodeMetaValInternal type length mv.version
        keyEnabledMask)]))) := by
    intro length
    rw [commitSize, Program.pure_eq_done, Program.done_bind]
    exact writesOpened_commitBatch (.stored opens (life_encodeMetaVal type length mv.version).1
      elements .nil) opens (answered 1) (unwritten 1)
  have emptied : mv.length ≠ 0 → WritesOpened key careful type (· < 0) metaVal (commitSize (do
      let cancelled ← cancelExpiration key (batch ++ [.put (encodeDeleteKey key mv.version) [],
        .put (encodeMetaKey key) (encodeMetaValInternal type mv.length mv.version keyDeleteMask)])
      return (0, cancelled.2))) := by
    intro sized
    rw [commitSize, Program.bind_assoc]
    exact writesOpened_delete (read.live success (Or.inl sized))
      (life_encodeMetaVal type mv.length mv.version).2 elements (Or.inl rfl) (answered 0)
      (unwritten 0)
  rw [incrSize]
  split_ifs with empty
  · exact resized _
  · exact kept 0
  · exact kept _
  · exact kept 1
  · exact kept _
  all_goals
    simp only
    split_ifs
    · exact emptied empty
    · exact resized _

/-! ### Strings and lists -/

theorem life_of_kvDecoded {metaVal : Bytes} {kv : KvMetaVal}
    (decodes : KvMetaVal.decodeMetaVal metaVal = .ok kv) :
    Life.ofMeta (some metaVal) =
      if kv.del = keyDeleteMask then .deleted kv.version else .live DataType.kv kv.version := by
  rw [KvMetaVal.decodeMetaVal] at decodes
  cases decoded : decodeMetaHeader metaVal with
  | none =>
      rw [decoded] at decodes
      cases decodes
  | some found =>
      obtain ⟨⟨type, version, del⟩, rest⟩ := found
      rw [life_of_header decoded]
      rw [decoded] at decodes
      simp only [Bool.false_eq_true, if_false] at decodes
      split_ifs at decodes with deleted other
      · cases decodes
        simp only [if_pos deleted]
      · cases decodes
        rw [not_not] at other
        simp only [if_neg deleted, other]

theorem KvMetaVal.decodeMetaVal_error {metaVal : Bytes} {code : Int}
    (fails : KvMetaVal.decodeMetaVal metaVal = .error code) : code < 0 := by
  rw [KvMetaVal.decodeMetaVal] at fails
  cases decoded : decodeMetaHeader metaVal with
  | none =>
      rw [decoded] at fails
      cases fails
      decide
  | some found =>
      obtain ⟨⟨type, version, del⟩, rest⟩ := found
      rw [decoded] at fails
      simp only [Bool.false_eq_true, if_false] at fails
      split_ifs at fails
      cases fails
      decide

/-- The metadata of a string. -/
theorem follows_getKvMetaVal {next : Int × KvMetaVal → Command β}
    (later : ∀ metaVal ret kv, MetaRead DataType.kv metaVal ret kv.version 0 →
      (next (ret, kv)).Follows (valueMonitor key careful) abort post
        { locked, metadata := some metaVal })
    (failed : ∀ kv, (next (storageErr, kv)).Ensures Watch.Quiet abort) :
    (getKvMetaVal (encodeMetaKey key) >>= next).Follows (valueMonitor key careful) abort post
      { locked } := by
  have unsized : ¬((0 : UInt64) ≠ 0 ∨ (0 : Int) < 0) := by decide
  rw [getKvMetaVal, Program.bind_assoc]
  refine follows_dbGet_metaKey (fun metaVal => ?_) (failed _)
  cases metaVal with
  | none => exact later none 0 _ ⟨fun _ => rfl, fun _ either => absurd either unsized⟩
  | some metaVal =>
      simp only [ReadStatus.ofOption]
      cases decodes : KvMetaVal.decodeMetaVal metaVal with
      | error code => exact later _ code _ (.failed (KvMetaVal.decodeMetaVal_error decodes))
      | ok kv =>
          have life := life_of_kvDecoded decodes
          simp only
          by_cases deleted : kv.del = keyDeleteMask
          · rw [if_pos deleted] at life
            rw [if_pos deleted]
            refine later _ 0 _ ⟨fun _ => ?_, fun _ either => absurd either unsized⟩
            rw [life]
            rfl
          · rw [if_neg deleted] at life
            rw [if_neg deleted]
            refine later _ 1 kv ⟨fun _ => ?_, fun _ _ => life⟩
            rw [life]
            exact ⟨rfl, rfl⟩

theorem life_of_listDecoded {metaVal : Bytes} {lv : ListMetaVal}
    (decodes : ListMetaVal.decodeMetaVal metaVal = .ok lv) :
    (lv.del = keyDeleteMask ∨ lv.del = keyEnabledMask) ∧ Life.ofMeta (some metaVal) =
      if lv.del = keyDeleteMask then .deleted lv.version else .live lv.type lv.version := by
  rw [ListMetaVal.decodeMetaVal] at decodes
  cases decoded : decodeMetaHeader metaVal with
  | none =>
      rw [decoded] at decodes
      cases decodes
  | some found =>
      obtain ⟨⟨type, version, del⟩, rest⟩ := found
      have flag := decodeMetaHeader_flag decoded
      rw [life_of_header decoded]
      rw [decoded] at decodes
      simp only at decodes flag
      split_ifs at decodes with deleted other
      · cases decodes
        exact ⟨flag, rfl⟩
      · split at decodes
        · cases decodes
        · cases decodes
          exact ⟨flag, rfl⟩

theorem ListMetaVal.decodeMetaVal_error {metaVal : Bytes} {code : Int}
    (fails : ListMetaVal.decodeMetaVal metaVal = .error code) : code < 0 := by
  rw [ListMetaVal.decodeMetaVal] at fails
  cases decoded : decodeMetaHeader metaVal with
  | none =>
      rw [decoded] at fails
      cases fails
      decide
  | some found =>
      obtain ⟨⟨type, version, del⟩, rest⟩ := found
      rw [decoded] at fails
      simp only at fails
      split_ifs at fails
      · cases fails
        decide
      · split at fails
        · cases fails
          decide
        · cases fails

/-- The metadata of a list. -/
theorem follows_getListMetaVal {next : Int × ListMetaVal → Command β}
    (later : ∀ metaVal ret lv, MetaRead DataType.lsize metaVal ret lv.version lv.length →
      (0 ≤ ret → lv.del = keyEnabledMask) → (next (ret, lv)).Follows (valueMonitor key careful) abort
        post { locked, metadata := some metaVal })
    (failed : ∀ lv, (next (storageErr, lv)).Ensures Watch.Quiet abort) :
    (getListMetaVal (encodeMetaKey key) >>= next).Follows (valueMonitor key careful) abort post
      { locked } := by
  have unsized : ¬((0 : UInt64) ≠ 0 ∨ (0 : Int) < 0) := by decide
  rw [getListMetaVal, Program.bind_assoc]
  refine follows_dbGet_metaKey (fun metaVal => ?_) (failed _)
  cases metaVal with
  | none => exact later none 0 _ ⟨fun _ => rfl, fun _ either => absurd either unsized⟩ fun _ => rfl
  | some metaVal =>
      simp only [ReadStatus.ofOption]
      cases decodes : ListMetaVal.decodeMetaVal metaVal with
      | error code =>
          have negative := ListMetaVal.decodeMetaVal_error decodes
          exact later _ code _ (.failed negative) fun success => absurd negative (not_lt.mpr success)
      | ok lv =>
          obtain ⟨flag, life⟩ := life_of_listDecoded decodes
          simp only
          by_cases deleted : lv.del = keyDeleteMask
          · rw [if_pos deleted] at life
            rw [if_pos deleted]
            refine later _ 0 _ ⟨fun _ => ?_, fun _ either => absurd either unsized⟩ fun _ => rfl
            rw [life]
            rfl
          · rw [if_neg deleted] at life
            rw [if_neg deleted]
            by_cases other : lv.type ≠ DataType.lsize
            · rw [if_pos other]
              exact later _ wrongTypeErr lv (.failed (by decide)) fun success =>
                absurd success (by decide)
            · rw [if_neg other]
              rw [not_not] at other
              refine later _ 1 lv ⟨fun _ => ?_, fun _ _ => ?_⟩ fun _ => ?_
              · rw [life]
                exact ⟨other.symm, rfl⟩
              · rw [life, other]
              · exact flag.resolve_left deleted

theorem life_encodeListMetaVal (length left right : UInt64) (version : UInt16) :
    Life.ofMeta (some (encodeListMetaVal length left right version keyEnabledMask)) =
        .live DataType.lsize version ∧
      Life.ofMeta (some (encodeListMetaVal length left right version keyDeleteMask)) =
        .deleted version := by
  constructor
  · rw [life_of_header (decodeMetaHeader_listMetaVal length left right version _ (Or.inr rfl))]
    exact if_neg enabled_ne_delete
  · rw [life_of_header (decodeMetaHeader_listMetaVal length left right version _ (Or.inl rfl))]
    exact if_pos rfl

theorem life_encodeKvVal (val : Bytes) (version : UInt16) :
    Life.ofMeta (some (encodeKvVal val version)) = .live DataType.kv version := by
  rw [life_of_header (decodeMetaHeader_kvVal val version)]
  exact if_neg enabled_ne_delete

end Metadata

end Vcdb
