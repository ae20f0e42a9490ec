import Vcdb.Keyspace.ClientRun
import Vcdb.Lib.Serial

/-!
# Serial orders of requests

Requests that hold the record mutex of their key work on the records of the key, whatever other
clients do to other records.  So what many clients leave is what their requests leave one after
another, in the order of their replies.
-/

namespace Vcdb

open Clients

/-! ### Updates of one key -/

section Updates

variable {key : UserKey} {db db' : DB} {batch : WriteBatch}

theorem StorageKey.Of.record {record : StorageKey} (own : record.Of key.1) :
    ∃ record' : RecordKey, record'.owner = key ∧ record.encode = record'.encode := by
  obtain ⟨name, short⟩ := key
  cases record with
  | metadata name =>
      cases own
      exact ⟨.metadata ⟨name, short⟩, rfl, rfl⟩
  | item name version field =>
      cases own
      exact ⟨.item ⟨name, short⟩ version field, rfl, rfl⟩
  | zscore name version score field =>
      cases own
      exact ⟨.zscore ⟨name, short⟩ version score field, rfl, rfl⟩
  | ekey name =>
      cases own
      exact ⟨.ekey ⟨name, short⟩, rfl, rfl⟩
  | escore score name =>
      cases own
      exact ⟨.escore score ⟨name, short⟩, rfl, rfl⟩
  | delete name version =>
      cases own
      exact ⟨.delete ⟨name, short⟩ version, rfl, rfl⟩

theorem Within.updates (within : Within (StorageKey.Of key.1) batch) :
    ∃ updates : List Update, batch = updates.map Update.encode ∧
      ∀ update ∈ updates, update.owner = key := by
  induction batch with
  | nil => exact ⟨[], rfl, fun _ mem => (by cases mem)⟩
  | cons op batch ih =>
      obtain ⟨⟨record, own, named⟩, rest⟩ := List.forall_mem_cons.mp within
      obtain ⟨record', owner, same⟩ := own.record
      obtain ⟨updates, rfl, owned⟩ := ih rest
      cases op with
      | put raw val =>
          obtain rfl : raw = record'.encode := named.trans same
          exact ⟨⟨record', some val⟩ :: updates, rfl, List.forall_mem_cons.mpr ⟨owner, owned⟩⟩
      | delete raw =>
          obtain rfl : raw = record'.encode := named.trans same
          exact ⟨⟨record', none⟩ :: updates, rfl, List.forall_mem_cons.mpr ⟨owner, owned⟩⟩

/-- What updates leave under a record depends on what was there only. -/
theorem Contents.applyAll_congr {contents contents' : Contents} {record : RecordKey}
    (same : contents record = contents' record) (updates : List Update) :
    contents.applyAll updates record = contents'.applyAll updates record := by
  induction updates generalizing contents contents' with
  | nil => exact same
  | cons update updates ih =>
      rw [applyAll_cons, applyAll_cons]
      refine ih ?_
      rw [Function.update_apply, Function.update_apply]
      split_ifs
      · rfl
      · exact same

/-- The records of the keys of a name. -/
def DB.part (db : DB) (name : Bytes) (record : RecordKey) : Option Bytes :=
  if record.owner.1 = name then db.contents record else none

theorem DB.part_eq_iff : db.part key.1 = db'.part key.1 ↔
    ∀ record : RecordKey, record.owner = key → db.contents record = db'.contents record := by
  constructor
  · intro same record own
    have at' := congrFun same record
    rwa [part, part, if_pos (congrArg Subtype.val own), if_pos (congrArg Subtype.val own)] at at'
  · intro same
    funext record
    rw [part, part]
    split_ifs with own
    · exact same record (Subtype.ext own)
    · rfl

theorem Within.part_of_ne (within : Within (StorageKey.Of key.1) batch) (db : DB) {other : Bytes}
    (differs : other ≠ key.1) : DB.part (batch.apply db) other = db.part other := by
  obtain ⟨updates, rfl, owned⟩ := within.updates
  funext record
  rw [DB.part, DB.part]
  split_ifs with own
  · rw [DB.contents_apply]
    refine Contents.applyAll_of_owner owned fun same => differs ?_
    rw [← own, same]
  · rfl

theorem Within.part_congr (within : Within (StorageKey.Of key.1) batch)
    (same : db.part key.1 = db'.part key.1) :
    DB.part (batch.apply db) key.1 = DB.part (batch.apply db') key.1 := by
  obtain ⟨updates, rfl, _⟩ := within.updates
  refine DB.part_eq_iff.mpr fun record own => ?_
  rw [DB.contents_apply, DB.contents_apply]
  exact Contents.applyAll_congr (DB.part_eq_iff.mp same record own) updates

theorem Within.keyed (within : Within (StorageKey.Of key.1) batch) (keyed : db.WellKeyed) :
    DB.WellKeyed (batch.apply db) := by
  obtain ⟨updates, rfl, _⟩ := within.updates
  exact keyed.updated ⟨updates, rfl⟩

end Updates

/-! ### What calls do to the store -/

/-- The clock and the random source give what those of the first world do. -/
structure World.Draws (start world : World) : Prop where
  clock : ∀ n, ∃ m, world.clock n = start.clock m
  random : ∀ n, ∃ m, world.random n = start.random m

/-- What a call may answer and leave.  The memory of expiries and the cursors are not looked at. -/
def storeDoes (start : World) : (op : StorageOp) → DB → op.Answer → DB → Prop
  | .get raw, db, answer, after => answer = .ofOption (db.get raw) ∧ after = db
  | .snapshot, db, answer, after => answer = db ∧ after = db
  | .getAt snapshot raw, db, answer, after => answer = .ofOption (snapshot.get raw) ∧ after = db
  | .write batch, db, answer, after => answer = true ∧ after = batch.apply db
  | .timeMs, db, answer, after => (∃ n, answer = start.clock n) ∧ after = db
  | .rand, db, answer, after => (∃ n, answer = start.random n) ∧ after = db
  | _, db, _, after => after = db

/-- The store that clients share. -/
def sharedStore (start : World) : Shared storage World DB Bytes (RecordKey → Option Bytes) where
  view := World.db
  good := start.Draws
  valid := DB.WellKeyed
  part := DB.part
  does := storeDoes start

section Calls

variable {start : World} {key : UserKey}

theorem sharedStore_sound (start : World) : (sharedStore start).Sound atomically := by
  intro op world draws
  cases op with
  | timeMs => exact ⟨⟨fun n => draws.clock (n + 1), draws.random⟩, draws.clock 0, rfl⟩
  | rand => exact ⟨⟨draws.clock, fun n => draws.random (n + 1)⟩, draws.random 0, rfl⟩
  | get raw | snapshot | getAt snapshot raw => exact ⟨draws, rfl, rfl⟩
  | write batch => exact ⟨⟨draws.clock, draws.random⟩, rfl, rfl⟩
  | insertFastKey name ts | delFastKey name | newCursor element =>
      exact ⟨⟨draws.clock, draws.random⟩, rfl⟩
  | lock name | unlock name | firstTimeout | findCursor cursor => exact ⟨draws, rfl⟩

theorem quiet_sharedStore {op : StorageOp} (quiet : Watch.Quiet op) :
    (sharedStore start).Quiet op := by
  intro db answer after does
  cases op with
  | write batch | insertFastKey name ts | delFastKey name | newCursor element => exact quiet.elim
  | get raw | snapshot | getAt snapshot raw | timeMs | rand => exact does.2
  | lock name | unlock name | firstTimeout | findCursor cursor => exact does

/-- Writes of records of a key. -/
def WritesKey (key : UserKey) : StorageOp → Prop
  | .write batch => Within (StorageKey.Of key.1) batch
  | _ => True

/-- A call on the records of a key goes the same way on every store that has these records. -/
theorem on_sharedStore {op : StorageOp} {next : op.Answer → Command Reply} (touches : Touches key op)
    (alike : ∀ answer answer', Alike key op answer answer' → next answer = next answer')
    (writes : WritesKey key op) : (sharedStore start).On key.1 op next := by
  intro db db' answer after valid valid' same does
  have stays : ∀ {db : DB}, db.WellKeyed → (sharedStore start).Only key.1 db db := fun valid =>
    ⟨valid, fun _ _ => rfl⟩
  have records := DB.part_eq_iff.mp same
  cases op with
  | get raw =>
      obtain ⟨rfl, rfl⟩ := does
      obtain ⟨record, own, rfl⟩ := touches
      refine ⟨stays valid, _, db', ⟨rfl, rfl⟩, ?_, stays valid', same⟩
      exact congrArg (fun found => next (.ofOption found)) (records record own)
  | snapshot =>
      obtain ⟨rfl, rfl⟩ := does
      exact ⟨stays valid, db', db', ⟨rfl, rfl⟩, alike _ _ ⟨valid', valid, records⟩, stays valid', same⟩
  | write batch =>
      obtain ⟨rfl, rfl⟩ := does
      exact ⟨⟨writes.keyed valid, fun _ differs => writes.part_of_ne db differs⟩, true, _, ⟨rfl, rfl⟩,
        rfl, ⟨writes.keyed valid', fun _ differs => writes.part_of_ne db' differs⟩,
        writes.part_congr same⟩
  | timeMs | rand =>
      obtain ⟨drawn, rfl⟩ := does
      exact ⟨stays valid, answer, db', ⟨drawn, rfl⟩, rfl, stays valid', same⟩
  | insertFastKey name ts | delFastKey name =>
      obtain rfl := does
      exact ⟨stays valid, (), db', rfl, rfl, stays valid', same⟩
  | lock name | unlock name | getAt snapshot raw | firstTimeout | findCursor cursor
  | newCursor element => exact touches.elim

theorem Inside.shared {command : Command Reply} (inside : Inside key command)
    (writes : command.Ensures (WritesKey key) fun _ => True) :
    (sharedStore start).Inside recordMutex key.1 command := by
  induction inside with
  | @call op next touches alike _ ih =>
      refine .call ?_ (on_sharedStore touches alike writes.1) fun answer => ih answer (writes.2 answer)
      cases op with
      | lock name | unlock name => exact touches.elim
      | _ => rfl
  | @unlock next value ends =>
      exact .release rfl (fun _ _ _ same => ⟨same, fun _ => rfl⟩) fun _ => ends

theorem Guarded.shared {command : Command Reply} (guarded : Guarded key command)
    (writes : command.Ensures (WritesKey key) fun _ => True) :
    (sharedStore start).Guarded recordMutex key.1 command := by
  induction guarded with
  | done value => exact .done value
  | timeMs _ ih =>
      exact .call rfl (fun _ _ _ does => ⟨does.2, fun _ => ⟨does.1, rfl⟩⟩) fun now =>
        ih now (writes.2 now)
  | lock inside =>
      exact .acquire rfl (fun _ _ _ same => ⟨same, fun _ => rfl⟩) fun _ => inside.shared (writes.2 ())

end Calls

/-! ### Requests on the shared store -/

section Requests

variable {start : World} {key : UserKey} {command : Command Reply}

theorem writesKey_of_works {p : StorageKey → Prop} {post : Reply → Prop} {held : Option Bytes}
    (own : ∀ record, p record → record.Of key.1)
    (works : command.Follows (workMonitor p) (fun _ => False)
      (fun held value => held = none ∧ post value) held) :
    command.Ensures (WritesKey key) fun _ => True := by
  induction command generalizing held with
  | done reply => trivial
  | call op next ih =>
      obtain ⟨allowed, rest⟩ := works
      refine ⟨?_, fun answer => ih answer (rest answer)⟩
      cases op with
      | write batch =>
          intro op mem
          obtain ⟨record, owned, named⟩ := allowed op mem
          exact ⟨record, own record owned, named⟩
      | _ => trivial

theorem writesKey_of_follows {careful : Bool} {abort : Reply → Prop} {post : Watch → Reply → Prop}
    {watch : Watch} (follows : command.Follows (valueMonitor key.1 careful) abort post watch) :
    command.Ensures (WritesKey key) fun _ => True := by
  induction command generalizing watch with
  | done reply => trivial
  | call op next ih =>
      obtain ⟨allowed, continues⟩ := (Program.follows_call op next).mp follows
      refine ⟨?_, fun answer => ?_⟩
      · cases op with
        | write batch =>
            obtain ⟨_, _, _, _, _, fits⟩ := allowed
            exact fits.within
        | _ => trivial
      · cases noted : Watch.after key.1 careful watch op answer with
        | some watch' => exact ih answer ((continues answer).2 watch' noted)
        | none =>
            refine (((continues answer).1 noted).mono fun _ _ => trivial).allow fun op idle => ?_
            cases op with
            | write batch => exact idle.elim
            | _ => trivial

theorem Request.writesKey (floats : Floats) {request : Request} (own : request.keys = [key.1]) :
    (request.run floats).Ensures (WritesKey key) fun _ => True := by
  by_cases whole : ∀ command, request ≠ value command
  · refine writesKey_of_works (fun record named => ?_) (request.works floats whole)
    have mem := named.1
    rwa [own, List.mem_singleton] at mem
  · push Not at whole
    obtain ⟨command, rfl⟩ := whole
    by_cases unread : command.Unread
    · obtain ⟨reply, same⟩ := command.run_unread floats unread
      simp only [run, same]
      trivial
    · have follows := command.writesValue floats unread
      rw [List.singleton_inj.mp own] at follows
      exact writesKey_of_follows follows

/-- The key whose mutex a request holds. -/
def Request.own (request : Request) : Option Bytes :=
  if request.conduct = .guarded then some (request.keys.headD []) else none

/-- The request holds the mutex of its key or only reads, and its keys fit the length field. -/
structure Request.Regular (request : Request) : Prop where
  conduct : request.conduct ≠ .loose
  short : ∀ name ∈ request.keys, name.length < 65536

abbrev RegularRequest : Type := { request : Request // request.Regular }

theorem Request.keys_of_guarded {request : Request} (conduct : request.conduct = .guarded) :
    ∃ name, request.keys = [name] := by
  cases request with
  | mset kvs | del keys => cases conduct
  | _ => exact ⟨_, rfl⟩

theorem Request.own_eq_some {request : Request} {name : Bytes} (own : request.own = some name) :
    request.conduct = .guarded ∧ request.keys = [name] := by
  rw [Request.own] at own
  split_ifs at own with conduct
  obtain ⟨only, keys⟩ := request.keys_of_guarded conduct
  rw [keys] at own
  refine ⟨conduct, keys.trans ?_⟩
  rw [← Option.some_inj.mp own]
  rfl

theorem Request.own_eq_none {request : Request} (regular : request.Regular)
    (free : request.own = none) : request.conduct = .reading := by
  rw [Request.own] at free
  split_ifs at free with guarded
  cases conduct : request.conduct with
  | guarded => exact absurd conduct guarded
  | reading => rfl
  | loose => exact absurd conduct regular.conduct

def RegularRequest.run (floats : Floats) (request : RegularRequest) : Command Reply :=
  request.1.run floats

theorem RegularRequest.guarded (floats : Floats) {request : RegularRequest} {name : Bytes}
    (owns : request.1.own = some name) : ∃ key : UserKey, key.1 = name ∧
      request.1.keys = [key.1] ∧ Guarded key (request.run floats) := by
  obtain ⟨conduct, keys⟩ := Request.own_eq_some owns
  have short := request.2.short name (keys ▸ List.mem_singleton_self name)
  exact ⟨⟨name, short⟩, rfl, keys, request.1.guarded floats conduct keys⟩

/-- Requests that hold the mutexes of their keys on the store. -/
theorem requests_locking (floats : Floats) (start : World) :
    (sharedStore start).Locking recordMutex failed atomically (RegularRequest.run floats)
      (fun request => request.1.own) fun _ => True where
  sound := sharedStore_sound start
  never := failed_atomically
  keeps request _ := request.1.keepsMutex floats
  guarded request name _ owns := by
    obtain ⟨key, rfl, keys, guarded⟩ := request.guarded floats owns
    exact guarded.shared (request.1.writesKey floats keys)
  quiet request _ free :=
    (request.1.reads floats (Request.own_eq_none request.2 free)).allow fun _ => quiet_sharedStore

end Requests

/-! ### One after another -/

section Worlds

variable {start : World}

/-- Operations that look neither at the memory of expiries nor at the cursors. -/
def Plain : StorageOp → Prop
  | .firstTimeout | .findCursor _ | .newCursor _ => False
  | _ => True

theorem Inside.plain {key : UserKey} {command : Command Reply} (inside : Inside key command) :
    command.Ensures Plain fun _ => True := by
  induction inside with
  | @call op next touches _ _ ih =>
      refine ⟨?_, ih⟩
      cases op with
      | firstTimeout | findCursor cursor | newCursor element => exact touches.elim
      | _ => trivial
  | unlock ends =>
      refine ⟨trivial, fun answer => ?_⟩
      have same : _ = Program.done _ := ends
      rw [same]
      trivial

theorem Guarded.plain {key : UserKey} {command : Command Reply} (guarded : Guarded key command) :
    command.Ensures Plain fun _ => True := by
  induction guarded with
  | done value => trivial
  | timeMs _ ih => exact ⟨trivial, ih⟩
  | lock inside => exact ⟨trivial, fun _ => inside.plain⟩

/-- A reading before those that are still to come. -/
def prepend {α : Type} (first : α) (later : Nat → α) : Nat → α
  | 0 => first
  | n + 1 => later n

theorem prepend_drawn {α : Type} {first : α} {later given : Nat → α} (drawn : ∃ m, first = given m)
    (rest : ∀ n, ∃ m, later n = given m) : ∀ n, ∃ m, prepend first later n = given m
  | 0 => drawn
  | n + 1 => rest n

/-- Whatever is remembered of expiries and cursors, there are readings with which a command goes so. -/
def Realized (start : World) (command : Command Reply) (db : DB) (reply : Reply) (after : DB) : Prop :=
  ∀ expiration cursors, ∃ clock random,
    let world : World := { db, expiration, cursors, clock, random }
    start.Draws world ∧ (command.eval atomically world).1 = reply ∧
      (command.eval atomically world).2.db = after

theorem realized_done (db : DB) (reply : Reply) : Realized start (.done reply) db reply db :=
  fun _ _ => ⟨start.clock, start.random, ⟨fun n => ⟨n, rfl⟩, fun n => ⟨n, rfl⟩⟩, rfl, rfl⟩

theorem Realized.call {op : StorageOp} {next : op.Answer → Command Reply} {db after last : DB}
    {answer : op.Answer} {reply : Reply} (plain : Plain op) (does : storeDoes start op db answer after)
    (realized : Realized start (next answer) after reply last) :
    Realized start (.call op next) db reply last := by
  intro expiration cursors
  cases op with
  | get raw | snapshot | getAt snapshot raw =>
      obtain ⟨rfl, rfl⟩ := does
      exact realized expiration cursors
  | lock name | unlock name =>
      obtain rfl := does
      exact realized expiration cursors
  | write batch =>
      obtain ⟨rfl, rfl⟩ := does
      obtain ⟨clock, random, draws, ends⟩ := realized expiration cursors
      exact ⟨clock, random, ⟨draws.clock, draws.random⟩, ends⟩
  | timeMs =>
      obtain ⟨drawn, rfl⟩ := does
      obtain ⟨clock, random, draws, ends⟩ := realized expiration cursors
      exact ⟨prepend answer clock, random, ⟨prepend_drawn drawn draws.clock, draws.random⟩, ends⟩
  | rand =>
      obtain ⟨drawn, rfl⟩ := does
      obtain ⟨clock, random, draws, ends⟩ := realized expiration cursors
      exact ⟨clock, prepend answer random, ⟨draws.clock, prepend_drawn drawn draws.random⟩, ends⟩
  | insertFastKey name ts =>
      obtain rfl := does
      obtain ⟨clock, random, draws, ends⟩ := realized (expiration.insertFastKey name ts) cursors
      exact ⟨clock, random, ⟨draws.clock, draws.random⟩, ends⟩
  | delFastKey name =>
      obtain rfl := does
      obtain ⟨clock, random, draws, ends⟩ := realized (expiration.delFastKey name) cursors
      exact ⟨clock, random, ⟨draws.clock, draws.random⟩, ends⟩
  | firstTimeout | findCursor cursor | newCursor element => exact plain.elim

theorem realized_of_runs {program rest : Command Reply} {db after : DB}
    (plain : program.Ensures Plain fun _ => True)
    (runs : (sharedStore start).Runs program db rest after) :
    (rest.Ensures Plain fun _ => True) ∧ ∀ reply last,
      Realized start rest after reply last → Realized start program db reply last := by
  induction runs with
  | refl => exact ⟨plain, fun _ _ => id⟩
  | step _ does ih =>
      exact ⟨ih.1.2 _, fun reply last realized => ih.2 reply last (realized.call ih.1.1 does)⟩

end Worlds

/-- The requests of a log, one after another.  Those that only read leave the store as it is, and
the others reply and write as they do alone, on a world with the store and with readings of the
clock and of the random source that have been given. -/
inductive Serial (floats : Floats) (start : World) : List (RegularRequest × Reply) → DB → Prop
  | start : Serial floats start [] start.db
  | reading {log : List (RegularRequest × Reply)} {db : DB} {request : RegularRequest}
      (serial : Serial floats start log db) (reads : request.1.conduct = .reading) (reply : Reply) :
      Serial floats start (log ++ [(request, reply)]) db
  | next {log : List (RegularRequest × Reply)} {request : RegularRequest} {world : World}
      (serial : Serial floats start log world.db) (guarded : request.1.conduct = .guarded)
      (draws : start.Draws world) :
      Serial floats start (log ++ [(request, ((request.run floats).eval atomically world).1)])
        ((request.run floats).eval atomically world).2.db

section Serializing

variable {floats : Floats} {start : World}

theorem serial_of_shared {log : List (RegularRequest × Reply)} {db : DB}
    (serial : (sharedStore start).Serial (RegularRequest.run floats) (fun request => request.1.own)
      start.db log db) : Serial floats start log db := by
  induction serial with
  | start => exact .start
  | @quiet log db request _ free reply ih =>
      exact ih.reading (Request.own_eq_none request.2 free) reply
  | @next log db after request name reply _ owns runs ih =>
      obtain ⟨key, rfl, keys, guarded⟩ := request.guarded floats owns
      obtain ⟨clock, random, draws, replied, left⟩ :=
        (realized_of_runs guarded.plain runs).2 reply after (realized_done after reply)
          start.expiration start.cursors
      have next := @Serial.next floats start log request _ ih (Request.own_eq_some owns).1 draws
      rw [replied, left] at next
      exact next

theorem DB.eq_of_contents {db db' : DB} (keyed : db.WellKeyed) (keyed' : db'.WellKeyed)
    (same : ∀ record : RecordKey, db.contents record = db'.contents record) : db = db' := by
  ext raw : 1
  by_cases named : ∃ record : RecordKey, raw = record.encode
  · obtain ⟨record, rfl⟩ := named
    exact same record
  · have absent : ∀ {db : DB}, db.WellKeyed → db.get raw = none := fun keyed =>
      Option.not_isSome_iff_eq_none.mp fun found => named (keyed raw found)
    rw [absent keyed, absent keyed']

variable {Client : Type} [DecidableEq Client] {s : ClientSystem Client RegularRequest}

/-- What clients leave who run requests at the same time is what the requests leave one after
another, in the order of their replies.  Where a mutex is held the store may be ahead of it. -/
theorem clients_serialized (keyed : start.db.WellKeyed)
    (reached : s.Reached (RegularRequest.run floats) (fun _ => True) start) :
    ∃ db, Serial floats start s.log db ∧
      (∀ record : RecordKey, s.holder record.owner.1 = none →
        s.state.db.contents record = db.contents record) ∧
      ((∀ client, s.jobs client = none) → s.state.db = db) := by
  obtain ⟨db, serialized⟩ := (requests_locking floats start).serialized
    ⟨fun n => ⟨n, rfl⟩, fun n => ⟨n, rfl⟩⟩ keyed (fun _ _ _ _ => trivial) reached
  have at' : ∀ record : RecordKey, s.state.db.part record.owner.1 = db.part record.owner.1 →
      s.state.db.contents record = db.contents record := fun record same =>
    DB.part_eq_iff.mp same record rfl
  refine ⟨db, serial_of_shared serialized.log, fun record unheld => ?_, fun idle => ?_⟩
  · refine at' record (serialized.free _ fun client _ _ _ held => ?_)
    rw [unheld] at held
    cases held
  · refine DB.eq_of_contents serialized.valid serialized.serialValid fun record => ?_
    refine at' record (serialized.free _ fun client job busy => ?_)
    rw [idle client] at busy
    cases busy

/-- The increment of two clients, of which one has had to wait for the other. -/
def incremented : ClientSystem Bool RegularRequest :=
  (System.opened freshWorld).runTurns recordMutex atomically (RegularRequest.run sampleFloats)
    (contendingTurns ⟨increment, by decide, by decide⟩ ++ List.replicate 2 (false, .call) ++
      List.replicate 4 (true, .call))

theorem clients_serialized_sample : incremented.log.map Prod.snd = [.int 1, .int 2] ∧
    ∃ db, Serial sampleFloats freshWorld incremented.log db ∧
      (∀ record : RecordKey, incremented.holder record.owner.1 = none →
        incremented.state.db.contents record = db.contents record) ∧
      ((∀ client, incremented.jobs client = none) → incremented.state.db = db) :=
  ⟨by decide +kernel, clients_serialized (fun _ found => (by cases found))
    (System.reached_runTurns (fun _ _ _ _ _ => trivial) .initial)⟩

end Serializing

end Vcdb
