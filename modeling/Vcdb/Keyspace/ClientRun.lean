import Vcdb.Keyspace.Conduct
import Vcdb.Keyspace.ServerRun

/-!
# Runs of many clients

Clients run commands at the same time, and their calls take turns in any order.  Who holds the
record mutex of a key finds the records of the key as it has left them, so what it commits fits what
is stored.
-/

namespace Vcdb

open Clients

abbrev ClientSystem (Client Cmd : Type) := System storage World Bytes Client Cmd Reply

/-- One client asks for a command or makes the next call of the one it is in. -/
abbrev ClientSystem.step {Client Cmd : Type} [DecidableEq Client] (run : Cmd → Command Reply) :
    ClientSystem Client Cmd → Client → Move Cmd → Option (ClientSystem Client Cmd) :=
  System.step recordMutex atomically run

/-- The systems that clients can bring about with some of the commands, beginning with none in
hand. -/
abbrev ClientSystem.Reached {Client Cmd : Type} [DecidableEq Client] (run : Cmd → Command Reply)
    (admits : Cmd → Prop) (start : World) (s : ClientSystem Client Cmd) : Prop :=
  Interleaving.Reached (ClientSystem.step run)
    (fun _ _ move => ∀ command, move = .ask command → admits command) (System.opened start) s

/-! ### Mutexes -/

/-- Answers of an engine that fails. -/
def failed : (op : StorageOp) → op.Answer → Bool
  | .get _, .error | .getAt _ _, .error => true
  | .write _, written => !written
  | _, _ => false

theorem failed_atomically (op : StorageOp) (world : World) :
    failed op (atomically op world).1 = false := by
  cases op with
  | get raw =>
      simp only [atomically]
      cases world.db.get raw with
      | none => rfl
      | some val => rfl
  | getAt snapshot raw =>
      simp only [atomically]
      cases snapshot.get raw with
      | none => rfl
      | some val => rfl
  | _ => rfl

/-- The mutex that a client holds. -/
def Watch.mutex (key : Bytes) (watch : Watch) : Option Bytes :=
  if watch.locked then some key else none

theorem Watch.mutex_congr (key : Bytes) {watch watch' : Watch} (same : watch'.locked = watch.locked) :
    watch'.mutex key = watch.mutex key :=
  congrArg (fun locked : Bool => if locked then some key else none) same

/-- Other calls leave the mutex alone. -/
theorem Watch.after_aside {key : Bytes} (careful : Bool) (watch : Watch) {op : StorageOp}
    (aside : recordMutex op = .aside) (answer : op.Answer) (kept : failed op answer = false) :
    ∃ watch', watch.after key careful op answer = some watch' ∧ watch'.locked = watch.locked := by
  cases op with
  | lock name => cases aside
  | unlock name => cases aside
  | get raw =>
      simp only [Watch.after]
      by_cases dropped : watch.dropped = true
      · exact ⟨_, if_pos dropped, rfl⟩
      · rw [if_neg dropped]
        cases answer with
        | error => cases kept
        | notFound =>
            refine ⟨_, rfl, ?_⟩
            split_ifs <;> rfl
        | ok val =>
            refine ⟨_, rfl, ?_⟩
            split_ifs <;> rfl
  | getAt snapshot raw =>
      cases answer with
      | error => cases kept
      | notFound => exact ⟨watch, rfl, rfl⟩
      | ok val => exact ⟨watch, rfl, rfl⟩
  | write batch =>
      cases answer with
      | false => cases kept
      | true => exact ⟨_, rfl, rfl⟩
  | _ => exact ⟨_, rfl, rfl⟩

section Keeping

variable {command : Command Reply}

theorem keepsMutex_of_works {p : StorageKey → Prop} {post : Reply → Prop} {held : Option Bytes}
    (works : command.Follows (workMonitor p) (fun _ => False)
      (fun held value => held = none ∧ post value) held) :
    KeepsMutex recordMutex failed held command := by
  induction command generalizing held with
  | done reply => exact works.1
  | call op next ih =>
      obtain ⟨allowed, rest⟩ := works
      refine keepsMutex_call ?_ fun answer _ => ih answer (rest answer)
      cases op with
      | write batch => rfl
      | _ => exact allowed

theorem keepsMutex_of_follows {key : Bytes} {careful : Bool} {abort : Reply → Prop}
    {post : Watch → Reply → Prop} (ends : ∀ last reply, post last reply → last.locked = false)
    {watch : Watch} (follows : command.Follows (valueMonitor key careful) abort post watch) :
    KeepsMutex recordMutex failed (watch.mutex key) command := by
  induction command generalizing watch with
  | done reply =>
      have unlocked := ends watch reply follows
      simp only [KeepsMutex, Program.follows_done, Watch.mutex, unlocked]
      rfl
  | call op next ih =>
      obtain ⟨allowed, continues⟩ := (Program.follows_call op next).mp follows
      have goes := fun answer watch' (noted : Watch.after key careful watch op answer = some watch') =>
        ih answer ((continues answer).2 watch' noted)
      have others : recordMutex op = .aside →
          KeepsMutex recordMutex failed (watch.mutex key) (.call op next) := fun aside => by
        refine keepsMutex_call (by rw [aside]; rfl) fun answer kept => ?_
        obtain ⟨watch', noted, same⟩ := Watch.after_aside careful watch aside answer kept
        rw [aside, MutexUse.turn, ← Watch.mutex_congr key same]
        exact goes answer watch' noted
      cases op with
      | lock name =>
          obtain ⟨rfl, unlocked⟩ := allowed
          refine keepsMutex_call ⟨?_, rfl⟩ fun answer _ => goes answer _ rfl
          rw [Watch.mutex, unlocked]
          rfl
      | unlock name =>
          obtain ⟨rfl, locked⟩ := allowed
          refine keepsMutex_call ⟨?_, rfl⟩ fun answer _ => goes answer _ rfl
          rw [Watch.mutex, locked]
          rfl
      | _ => exact others rfl

/-- Every request holds one record mutex at a time, MSET too. -/
theorem Request.keepsMutex (floats : Floats) (request : Request) :
    KeepsMutex recordMutex failed none (request.run floats) := by
  by_cases whole : ∀ command, request ≠ value command
  · exact keepsMutex_of_works (request.works floats whole)
  · push Not at whole
    obtain ⟨command, rfl⟩ := whole
    by_cases unread : command.Unread
    · obtain ⟨reply, same⟩ := command.run_unread floats unread
      simp only [run, same]
      exact rfl
    · have kept := keepsMutex_of_follows (fun _ _ ended => ended.mutex)
        (command.writesValue floats unread)
      exact kept

end Keeping

/-- A batch that fits the records of its key as they are. -/
def CommitFits (key : Bytes) (db : DB) (batch : WriteBatch) : Prop :=
  ∃ expiry : Option ReadStatus, Fits key (db.get (encodeMetaKey key)) expiry batch ∧
    ∀ answer, expiry = some answer → answer = .ofOption (db.get (encodeEsetKey key))

section Commits

variable {key : Bytes} {db : DB} {batch : WriteBatch}

theorem CommitFits.deed (fits : CommitFits key db batch) (world : World) (current : world.db = db) :
    ∃ after : World, after.db = batch.apply db ∧ ValueDeed key world after := by
  obtain ⟨expiry, fits, read⟩ := fits
  subst current
  let after : World := { world with
    db := batch.apply world.db
    expiration := if expiry.isSome then world.expiration.delFastKey key else world.expiration }
  exact ⟨after, rfl, fits.deed read rfl rfl⟩

theorem CommitFits.within (fits : CommitFits key db batch) : Within (StorageKey.Of key) batch :=
  fits.choose_spec.1.within

theorem ValueDeed.ledger_of_ne {world after : World} (deed : ValueDeed key world after)
    {other : Bytes} (differs : other ≠ key) : after.db.ledger other = world.db.ledger other := by
  rcases deed with kept | ⟨deed, _⟩
  · exact kept.ledger_of_ne differs
  · exact deed.ledger_of_ne differs

theorem CommitFits.orderly (fits : CommitFits key db batch) (orderly : Orderly db) :
    Orderly (batch.apply db) := by
  obtain ⟨after, written, deed⟩ := fits.deed (freshWorld.withDB db) rfl
  rw [← written]
  refine deed.course.orderly orderly ?_
  rw [written]
  exact (fits.within.differs db).spelled orderly.spelled

end Commits

/-! ### What clients know -/

/-- What a client that holds the mutex of its key has noted is true of the store, up to its
commit. -/
structure Watch.Current (key : Bytes) (watch : Watch) (world : World) : Prop where
  unread : watch.dropped = false → watch.expiry = none
  metadata : watch.locked = true → watch.committed = none →
    ∀ metaVal, watch.metadata = some metaVal → world.db.get (encodeMetaKey key) = metaVal
  expiry : watch.locked = true → watch.committed = none → ∀ metaVal,
    watch.metadata = some metaVal → ∀ answer, watch.expiry = some answer →
      answer = .ofOption (world.db.get (encodeEsetKey key))

section Notes

variable {key : Bytes} {watch : Watch} {world world' : World} {op : StorageOp}

theorem Watch.Current.same (current : watch.Current key world) (db : world'.db = world.db) :
    watch.Current key world' :=
  ⟨current.unread, fun locked pending => db ▸ current.metadata locked pending,
    fun locked pending => db ▸ current.expiry locked pending⟩

/-- The records of the key have not been touched. -/
theorem Watch.Current.of_ledger (current : watch.Current key world)
    (same : world'.db.ledger key = world.db.ledger key) : watch.Current key world' := by
  have metadata : world'.db.get (encodeMetaKey key) = world.db.get (encodeMetaKey key) :=
    congrArg KeyRecords.metaVal same
  have expiry : world'.db.get (encodeEsetKey key) = world.db.get (encodeEsetKey key) :=
    congrArg KeyRecords.expiry same
  refine ⟨current.unread, fun locked pending => ?_, fun locked pending => ?_⟩
  · rw [metadata]
    exact current.metadata locked pending
  · rw [expiry]
    exact current.expiry locked pending

/-- Nothing is known without the mutex. -/
theorem Watch.Current.of_unlocked (current : watch.Current key world)
    (unlocked : watch.locked = false) (world' : World) : watch.Current key world' :=
  ⟨current.unread, fun locked => absurd (unlocked.symm.trans locked) Bool.false_ne_true,
    fun locked => absurd (unlocked.symm.trans locked) Bool.false_ne_true⟩

/-- What may be committed fits what is stored. -/
theorem Watch.Current.fits {batch : WriteBatch} (current : watch.Current key world)
    (allowed : watch.allows key (.write batch)) : CommitFits key world.db batch := by
  obtain ⟨locked, pending, _, metaVal, seen, fits⟩ := allowed
  refine ⟨watch.expiry, ?_, current.expiry locked pending metaVal seen⟩
  rw [current.metadata locked pending metaVal seen]
  exact fits

/-- A call and the note that is made of it. -/
theorem Watch.Current.own {careful : Bool} (allowed : watch.allows key op)
    (current : watch.Current key world) :
    ∃ next, watch.after key careful op (atomically op world).1 = some next ∧
      (recordMutex op).Turns (watch.mutex key) (next.mutex key) ∧
      next.Current key (atomically op world).2 := by
  have stays := @Watch.mutex_congr key watch
  cases op with
  | lock name =>
      obtain ⟨rfl, unlocked⟩ := allowed
      refine ⟨_, rfl, ⟨?_, rfl⟩, current.unread, fun _ _ _ seen => (by cases seen),
        fun _ _ _ seen => (by cases seen)⟩
      rw [mutex, unlocked]
      rfl
  | unlock name =>
      obtain ⟨rfl, locked⟩ := allowed
      refine ⟨_, rfl, ⟨?_, rfl⟩, current.unread, fun locked => (by cases locked),
        fun locked => (by cases locked)⟩
      rw [mutex, locked]
      rfl
  | get raw =>
      obtain ⟨uncommitted, expiryRead⟩ := allowed
      simp only [Watch.after, atomically]
      by_cases dropped : watch.dropped = true
      · rw [if_pos dropped]
        refine ⟨_, rfl, stays rfl, fun kept => absurd (dropped.symm.trans kept) (by decide),
          current.metadata, fun _ _ _ _ answer same => ?_⟩
        rw [← Option.some_inj.mp same, expiryRead dropped]
      · rw [if_neg dropped]
        rw [Bool.not_eq_true] at dropped
        have noted : ∀ metaVal, world.db.get raw = metaVal →
            (recordMutex (.get raw)).Turns (watch.mutex key) ((if raw = encodeMetaKey key then
              { watch with metadata := some metaVal } else watch).mutex key) ∧
            Watch.Current key (if raw = encodeMetaKey key then
              { watch with metadata := some metaVal } else watch) world := by
          intro metaVal found
          split_ifs with own
          · refine ⟨stays rfl, current.unread, fun _ _ metaVal' seen => ?_,
              fun _ _ _ _ answer read => ?_⟩
            · rw [← Option.some_inj.mp seen, ← found, own]
            · exact absurd ((current.unread dropped).symm.trans read) (Option.some_ne_none answer).symm
          · exact ⟨rfl, current⟩
        cases found : world.db.get raw with
        | none => exact ⟨_, rfl, noted none found⟩
        | some val => exact ⟨_, rfl, noted (some val) found⟩
  | getAt snapshot raw =>
      exact ⟨watch, if_neg (ReadStatus.ofOption_ne_error (snapshot.get raw)), rfl, current⟩
  | write batch =>
      exact ⟨_, rfl, stays rfl, current.unread, fun _ pending => absurd pending (Option.some_ne_none _),
        fun _ pending => absurd pending (Option.some_ne_none _)⟩
  | delFastKey name =>
      exact ⟨_, rfl, stays rfl, fun kept => (by cases kept), current.metadata, current.expiry⟩
  | timeMs | rand => exact ⟨watch, rfl, rfl, current.same rfl⟩
  | snapshot | firstTimeout => exact ⟨watch, rfl, rfl, current⟩
  | findCursor cursor => exact ⟨watch, rfl, rfl, current⟩
  | insertFastKey name ts => exact allowed.elim
  | newCursor element => exact allowed.elim

/-- A call that is allowed changes nothing in the store but by a commit that fits. -/
theorem Watch.Current.db_or_commit (allowed : watch.allows key op) (current : watch.Current key world) :
    (atomically op world).2.db = world.db ∨ ∃ batch, watch.mutex key = some key ∧
      CommitFits key world.db batch ∧ (atomically op world).2.db = batch.apply world.db := by
  cases op with
  | write batch => exact Or.inr ⟨batch, if_pos allowed.1, current.fits allowed, rfl⟩
  | _ => exact Or.inl rfl

/-- The calls of one client do not spoil the notes of another one. -/
theorem Watch.Current.others {other : Bytes} {watch' : Watch} (allowed : watch.allows key op)
    (current : watch.Current key world)
    (apart : ∀ name, watch.mutex key = some name → watch'.mutex other ≠ some name)
    (current' : watch'.Current other world) : watch'.Current other (atomically op world).2 := by
  rcases current.db_or_commit allowed with same | ⟨batch, locked, fits, written⟩
  · exact current'.same same
  · by_cases own : other = key
    · subst own
      refine current'.of_unlocked ?_ _
      rw [Bool.eq_false_iff]
      exact fun locked' => apart other locked (if_pos locked')
    · obtain ⟨after, db, deed⟩ := fits.deed world rfl
      refine current'.of_ledger ?_
      rw [written, ← db]
      exact deed.ledger_of_ne own

end Notes

/-! ### Runs -/

section Runs

variable (floats : Floats)

variable {floats} {Client : Type} {start : World} {client : Client}

section Values

variable {s after : ClientSystem Client ValueCommand} {move : Move ValueCommand}

/-- A step leaves the store as it is, or it commits what fits the records of a key whose mutex its
client holds. -/
def ClientSystem.Isolates (s : ClientSystem Client ValueCommand) (client : Client)
    (after : ClientSystem Client ValueCommand) : Prop :=
  after.state.db = s.state.db ∨ ∃ job batch, s.jobs client = some job ∧
    s.holder job.command.key = some client ∧ CommitFits job.command.key s.state.db batch ∧
    after.state.db = batch.apply s.state.db

theorem ClientSystem.Isolates.orderly (isolates : s.Isolates client after)
    (orderly : Orderly s.state.db) : Orderly after.state.db := by
  rcases isolates with same | ⟨job, batch, _, _, fits, written⟩
  · rw [same]
    exact orderly
  · rw [written]
    exact fits.orderly orderly

variable [DecidableEq Client]

/-- Two clients that ask for the same command, of which the second one has to wait. -/
def contendingTurns {Cmd : Type} (command : Cmd) : List (Bool × Move Cmd) :=
  [(false, .ask command), (true, .ask command), (false, .call), (true, .call), (false, .call)]

/-- The first client has read the number that both of them increment. -/
def contended : ClientSystem Bool ValueCommand :=
  (System.opened freshWorld).runTurns recordMutex atomically (ValueCommand.run sampleFloats)
    (contendingTurns (.string (.incr [110] none)))

end Values

section Requests

variable [DecidableEq Client] {s : ClientSystem Client Request}

/-- DEL gives back record mutexes that it has never taken. -/
def Request.TakesMutexes (request : Request) : Prop := ∀ keys, request ≠ .del keys

/-- There is no deadlock: a client in the middle of a request can make its next call, or it waits
for a mutex whose holder can. -/
theorem clients_progress (reached : s.Reached (Request.run floats) Request.TakesMutexes start)
    {job : Job storage Request Reply} (busy : s.jobs client = some job) :
    (s.step (Request.run floats) client .call).isSome ∨ ∃ key other, job.op = .lock key ∧
      s.holder key = some other ∧ (s.step (Request.run floats) other .call).isSome := by
  have discipline : Discipline recordMutex atomically (Request.run floats) Request.TakesMutexes
      (lockNotes recordMutex failed World Request Reply) :=
    lockDiscipline failed_atomically fun request _ => request.keepsMutex floats
  have watched := discipline.watched (fun _ _ command allowed => allowed command rfl) reached
  rcases discipline.progress watched busy with goes | ⟨key, other, use, held, goes⟩
  · exact Or.inl goes
  · refine Or.inr ⟨key, other, ?_, held, goes⟩
    cases op : job.op with
    | lock name =>
        rw [op] at use
        exact congrArg StorageOp.lock (MutexUse.acquire.inj use)
    | _ =>
        rw [op] at use
        cases use

/-- An increment, as a request. -/
abbrev increment : Request := .value (.string (.incr [110] none))

theorem clients_progress_sample : ∃ (s : ClientSystem Bool Request)
    (job : Job storage Request Reply), s.jobs true = some job ∧
      (s.step (Request.run sampleFloats) true .call).isNone ∧
      ((s.step (Request.run sampleFloats) true .call).isSome ∨ ∃ key other, job.op = .lock key ∧
        s.holder key = some other ∧ (s.step (Request.run sampleFloats) other .call).isSome) := by
  refine ⟨(System.opened freshWorld).runTurns recordMutex atomically (Request.run sampleFloats)
    (contendingTurns increment), _, rfl, by decide +kernel, ?_⟩
  refine @clients_progress sampleFloats Bool freshWorld true _ _ (System.reached_runTurns ?_ .initial)
    _ rfl
  rintro turn mem s command asked keys rfl
  simp only [contendingTurns, List.mem_cons, List.not_mem_nil, or_false] at mem
  rcases mem with rfl | rfl | rfl | rfl | rfl <;> cases asked

end Requests

end Runs

end Vcdb
